import Recognizer.Code.Literal
import Recognizer.Proofs.Reading.Token
/-!
Literals read back: the scan of an escaped text gives the text, and ends at the quote that ends the
literal.
-/

namespace Recognizer.Code

open Scan

variable {quote : Char} {s : List Char} {c : Char}

theorem hexValue?_digitChar {d : Nat} (h : d < 16) : hexValue? d.digitChar = some d := by
  have hall : ∀ d < 16, hexValue? (Nat.digitChar d) = some d := by decide
  exact hall d h

theorem digitChar_ne_brace {d : Nat} (h : d < 16) : d.digitChar ≠ '\x7d' := by
  have hall : ∀ d < 16, Nat.digitChar d ≠ '\x7d' := by decide
  exact hall d h

theorem step_digit (quote : Char) (s : List Char) (value : Nat) {count d : Nat} (hd : d < 16)
    (hc : count < 6) : (literal quote s (.digits value count)).step d.digitChar =
      (literal quote s (.digits (16 * value + d) (count + 1)), []) := by
  simp [step, literalStep, digitChar_ne_brace hd, hexValue?_digitChar hd, hc]

theorem run_hex (quote : Char) (s : List Char) {n : Nat} (h : (Text.hex n).length ≤ 6) :
    (literal quote s (.digits 0 0)).run (Text.hex n) =
      (literal quote s (.digits n (Text.hex n).length), []) := by
  unfold Text.hex at h ⊢
  induction n using Nat.strongRecOn with
  | _ n ih =>
    by_cases hn : n < 16
    · rw [Nat.toDigits_of_lt_base hn, run_cons, step_digit quote s 0 hn (by decide)]
      simp
    · rw [Nat.toDigits_of_base_le (by decide) (by omega), List.length_append] at h ⊢
      simp only [List.length_singleton] at h ⊢
      have hi := ih (n / 16) (by omega) (by omega)
      have hs := step_digit quote s (n / 16) (Nat.mod_lt n (by decide : 0 < 16))
        (by omega : (Nat.toDigits 16 (n / 16)).length < 6)
      rw [Nat.div_add_mod] at hs
      exact run_trans hi (by rw [run_cons, hs]; rfl)

theorem length_hex_le (c : Char) : (Text.hex c.toNat).length ≤ 6 := by
  have hlt : c.toNat < 16 ^ 6 := by
    rcases c.valid with h | ⟨-, h⟩
    · exact Nat.lt_trans h (by decide)
    · exact Nat.lt_trans h (by decide)
  exact (Nat.length_toDigits_le_iff (by decide) (by decide)).2 hlt

theorem scalar?_toNat (c : Char) : scalar? c.toNat = some c := by
  have hv : c.toNat.isValidChar := c.valid
  simp [scalar?, hv]

theorem run_codePoint (quote : Char) (s : List Char) (c : Char) (hq : quote ≠ '\\') :
    (literal quote s .none).run ('\\' :: 'u' :: '\x7b' :: Text.hex c.toNat ++ ['\x7d']) =
      (literal quote (s ++ [c]) .none, []) := by
  have hopen : (literal quote s .none).run ['\\', 'u', '\x7b'] =
      (literal quote s (.digits 0 0), []) := by
    simp [run_cons, step, literalStep, hq.symm]
  have hdigits := run_hex quote s (length_hex_le c)
  have hclose : (literal quote s (.digits c.toNat (Text.hex c.toNat).length)).run ['\x7d'] =
      (literal quote (s ++ [c]) .none, []) := by
    have hne : Text.hex c.toNat ≠ [] := Nat.toDigits_ne_nil
    simp [run_cons, step, literalStep, scalar?_toNat, hne]
  exact run_trans (run_trans hopen hdigits) hclose

theorem run_escapeChar (hq : quote = '\'' ∨ quote = '"') (s : List Char) (c : Char) :
    (literal quote s .none).run (escapeChar [quote] c) = (literal quote (s ++ [c]) .none, []) := by
  have hback : quote ≠ '\\' := by
    rcases hq with rfl | rfl <;> decide
  unfold escapeChar
  split
  · rename_i h
    obtain rfl : c = quote := by simpa using h
    rcases hq with rfl | rfl <;> simp [run_cons, step, literalStep, unescape?]
  · rename_i hc
    split
    · simp [run_cons, step, literalStep, unescape?, hback.symm]
    · simp [run_cons, step, literalStep, unescape?, hback.symm]
    · simp [run_cons, step, literalStep, unescape?, hback.symm]
    · simp [run_cons, step, literalStep, unescape?, hback.symm]
    · simp [run_cons, step, literalStep, unescape?, hback.symm]
    · split
      · simp_all [run_cons, step, literalStep]
      · exact run_codePoint quote s c hback

theorem run_escape (hq : quote = '\'' ∨ quote = '"') (s w : List Char) :
    (literal quote s .none).run (escape [quote] w) = (literal quote (s ++ w) .none, []) := by
  induction w generalizing s with
  | nil => simp
  | cons c w ih =>
    have h := run_trans (run_escapeChar hq s c) (ih (s ++ [c]))
    simpa [escape_cons] using h

theorem run_literal (hq : quote = '\'' ∨ quote = '"') (w : List Char) :
    between.run (quote :: escape [quote] w ++ [quote]) = (between, [.ofLiteral quote w]) := by
  have hopen : between.run [quote] = (literal quote [] .none, []) := by
    rcases hq with rfl | rfl <;> rfl
  have hclose : (literal quote w .none).run [quote] = (between, [.ofLiteral quote w]) := by
    rcases hq with rfl | rfl <;> simp [run_cons, step, literalStep]
  exact run_trans (run_trans hopen (run_escape hq [] w)) hclose

theorem run_charLiteral (c : Char) :
    between.run (charLiteral [c]).toList = (between, [.character c]) := by
  rw [charLiteral, String.toList_ofList, run_literal (.inl rfl)]
  rfl

example : between.run "'\\u\x7b2028\x7d'".toList = (between, [.character '\u2028']) := by decide

theorem run_stringLiteral (w : List Char) :
    between.run (stringLiteral w).toList = (between, [.text w]) := by
  rw [stringLiteral, String.toList_ofList, run_literal (.inr rfl)]
  rfl

end Recognizer.Code
