import Mathlib.Data.List.Induction
import Recognizer.Proofs.Reading.Literal
import Recognizer.Text.Lines
/-!
The inside of literals by their grammar: characters that stand for themselves, and escapes. Main
statement: an escaped text stands for that text alone, whatever comes behind it, and the quote that
delimits it occurs in it inside of escapes only, so that no literal ends too soon.
-/

namespace Recognizer.Code

/-- The number that hexadecimal digits spell. -/
def hexNumber? (digits : List Char) : Option Nat :=
  digits.foldlM (fun n d ↦ (hexValue? d).map (16 * n + ·)) 0

/-- An escape, and the character that it stands for. -/
inductive Escaped : List Char → Char → Prop
  | letter {d c : Char} : unescape? d = some c → Escaped ['\\', d] c
  | codePoint {digits : List Char} {c : Char} : digits ≠ [] → digits.length ≤ 6 →
      hexNumber? digits = some c.toNat → Escaped ('\\' :: 'u' :: '\x7b' :: (digits ++ ['\x7d'])) c

/-- The inside of a literal that `quote` delimits, and the text that it stands for. -/
inductive Body (quote : Char) : List Char → List Char → Prop
  | nil : Body quote [] []
  | plain {c : Char} {b s : List Char} : c ≠ quote → c ≠ '\\' → Body quote b s →
      Body quote (c :: b) (c :: s)
  | escaped {e b s : List Char} {c : Char} : Escaped e c → Body quote b s →
      Body quote (e ++ b) (c :: s)

/-- A text cut at the first quote that no backslash takes with it: what stands before that quote,
and what stands behind it. -/
def cut? (quote : Char) : List Char → Option (List Char × List Char)
  | [] => none
  | '\\' :: c :: s => (cut? quote s).map fun r ↦ ('\\' :: c :: r.1, r.2)
  | c :: s => if c = quote then some ([], s) else (cut? quote s).map fun r ↦ (c :: r.1, r.2)

variable {quote c d : Char} {b e f s t u v digits rest : List Char} {k : Nat}

section Hex

theorem hexNumber?_concat (digits : List Char) (d : Char) : hexNumber? (digits ++ [d]) =
    (hexNumber? digits).bind fun n ↦ (hexValue? d).map (16 * n + ·) := by
  simp [hexNumber?, List.foldlM_append]

theorem hexNumber?_hex (n : Nat) : hexNumber? (Text.hex n) = some n := by
  unfold Text.hex
  induction n using Nat.strongRecOn with
  | _ n ih =>
    by_cases hn : n < 16
    · rw [Nat.toDigits_of_lt_base hn]
      simp [hexNumber?, hexValue?_digitChar hn]
    · have hlast : n % 16 < 16 := Nat.mod_lt n (by decide)
      rw [Nat.toDigits_of_base_le (by decide) (by omega), hexNumber?_concat, ih _ (by omega),
        hexValue?_digitChar hlast, Option.bind_some, Option.map_some, Nat.div_add_mod]

theorem exists_hexValue? {n : Nat} (h : hexNumber? digits = some n) (hd : d ∈ digits) :
    ∃ k, hexValue? d = some k := by
  induction digits using List.reverseRecOn generalizing n with
  | nil => simp at hd
  | append_singleton digits a ih =>
    rw [hexNumber?_concat, Option.bind_eq_some_iff] at h
    obtain ⟨m, hm, ha⟩ := h
    rcases List.mem_append.1 hd with hd | hd
    · exact ih hm hd
    · obtain ⟨k, hk, -⟩ := Option.map_eq_some_iff.1 ha
      exact ⟨k, by rw [List.mem_singleton.1 hd, hk]⟩

theorem ne_of_hexValue? (h : hexValue? c = some k) (hd : hexValue? d = none) : c ≠ d := by
  rintro rfl
  exact absurd (h.symm.trans hd) nofun

theorem isPrintable_of_hexValue? (h : hexValue? c = some k) : Text.isPrintable c := by
  have hbounds : 0x20 ≤ c.toNat ∧ c.toNat < 0x7f := by
    have hval : c.toNat = c.val.toNat := rfl
    simp only [hexValue?, Char.isDigit, Char.le_def, Bool.and_eq_true, decide_eq_true_eq, ge_iff_le,
      UInt32.le_iff_toNat_le] at h
    grind
  exact Text.isPrintable_of_ascii hbounds.1 hbounds.2

end Hex

theorem isBreak_of_isPrintable (h : Text.isPrintable c) : Text.isBreak c = false := by
  have hall : ['\n', '\r', '\x0b', '\x0c', '\x1c', '\x1d', '\x1e', '\x85', '\u2028', '\u2029'].all
      fun d ↦ !Text.isPrintable d := by decide +kernel
  rw [Text.isBreak, decide_eq_false_iff_not]
  intro hc
  have hn := List.all_eq_true.1 hall c hc
  simp [h] at hn

namespace Escaped

theorem exists_cons (h : Escaped e c) : ∃ f, e = '\\' :: f := by
  cases h with
  | letter => exact ⟨_, rfl⟩
  | codePoint => exact ⟨_, rfl⟩

theorem eq_of_brace (hs : '\x7d' ∉ s) (ht : '\x7d' ∉ t)
    (h : s ++ '\x7d' :: u = t ++ '\x7d' :: v) : s = t ∧ u = v := by
  rcases List.append_eq_append_iff.1 h with ⟨x, rfl, hx⟩ | ⟨x, rfl, hx⟩ <;> cases x <;> simp_all

theorem brace_notMem {n : Nat} (h : hexNumber? digits = some n) : '\x7d' ∉ digits := by
  intro hm
  obtain ⟨k, hk⟩ := exists_hexValue? h hm
  exact ne_of_hexValue? hk (by decide) rfl

/-- No escape begins another one, so what stands behind it is the same too. -/
theorem unique (he : Escaped e c) (hf : Escaped f d) (h : e ++ s = f ++ t) : c = d ∧ s = t := by
  have hu : unescape? 'u' = none := rfl
  cases he with
  | letter hc =>
    cases hf with
    | letter hd =>
      obtain ⟨rfl, hst⟩ : _ = _ ∧ s = t := by simpa using h
      exact ⟨Option.some.inj (hc.symm.trans hd), hst⟩
    | codePoint =>
      obtain ⟨rfl, -⟩ : _ = 'u' ∧ _ := by simpa using h
      exact absurd (hc.symm.trans hu) nofun
  | codePoint _ _ hc =>
    cases hf with
    | letter hd =>
      obtain ⟨rfl, -⟩ : 'u' = _ ∧ _ := by simpa using h
      exact absurd (hd.symm.trans hu) nofun
    | codePoint _ _ hd =>
      obtain ⟨rfl, hst⟩ := eq_of_brace (brace_notMem hc) (brace_notMem hd) (by simpa using h)
      exact ⟨Char.toNat_inj.1 (Option.some.inj (hc.symm.trans hd)), hst⟩

theorem isPrintable (h : Escaped e c) : ∀ d ∈ e, Text.isPrintable d := by
  cases h with
  | @letter a c ha =>
    have hall : ['\\', 'n', 'r', 't', '0', '\'', '"'].all Text.isPrintable := by decide
    have hmem : a ∈ ['\\', 'n', 'r', 't', '0', '\'', '"'] := by
      unfold unescape? at ha
      split at ha <;> simp at ha ⊢
    rw [List.forall_mem_cons, List.forall_mem_singleton]
    exact ⟨by decide, List.all_eq_true.1 hall a hmem⟩
  | codePoint _ _ hn =>
    rw [List.forall_mem_cons, List.forall_mem_cons, List.forall_mem_cons, List.forall_mem_append,
      List.forall_mem_singleton]
    refine ⟨by decide, by decide, by decide, ?_, by decide⟩
    intro d hd
    obtain ⟨k, hk⟩ := exists_hexValue? hn hd
    exact isPrintable_of_hexValue? hk

theorem codePoint_hex (c : Char) :
    Escaped ('\\' :: 'u' :: '\x7b' :: (Text.hex c.toNat ++ ['\x7d'])) c :=
  .codePoint Nat.toDigits_ne_nil (length_hex_le c) (hexNumber?_hex c.toNat)

end Escaped

/-- A character is written as itself or as an escape. -/
theorem escapeChar_cases (hq : quote = '\'' ∨ quote = '"') (c : Char) :
    (escapeChar [quote] c = [c] ∧ c ≠ quote ∧ c ≠ '\\' ∧ Text.isPrintable c) ∨
      Escaped (escapeChar [quote] c) c := by
  unfold escapeChar
  split
  · next h =>
    obtain rfl : c = quote := by simpa using h
    refine .inr (.letter ?_)
    rcases hq with rfl | rfl <;> rfl
  · next hc =>
    split
    · exact .inr (.letter rfl)
    · exact .inr (.letter rfl)
    · exact .inr (.letter rfl)
    · exact .inr (.letter rfl)
    · exact .inr (.letter rfl)
    · next hback _ _ _ _ =>
      split
      · next hp => exact .inl ⟨rfl, by simpa using hc, hback, hp⟩
      · exact .inr (.codePoint_hex c)

namespace Body

theorem nil_iff : Body quote [] s ↔ s = [] := by
  constructor
  · intro h
    generalize hb : ([] : List Char) = b at h
    cases h with
    | nil => rfl
    | plain => simp at hb
    | escaped he _ =>
      obtain ⟨f, rfl⟩ := he.exists_cons
      simp at hb
  · rintro rfl
    exact .nil

theorem cons_iff (hc : c ≠ '\\') :
    Body quote (c :: b) s ↔ c ≠ quote ∧ ∃ t, s = c :: t ∧ Body quote b t := by
  constructor
  · intro h
    generalize hb : c :: b = a at h
    cases h with
    | nil => simp at hb
    | plain hq _ h =>
      obtain ⟨rfl, rfl⟩ := List.cons_eq_cons.1 hb
      exact ⟨hq, _, rfl, h⟩
    | escaped he _ =>
      obtain ⟨f, rfl⟩ := he.exists_cons
      exact absurd (List.cons_eq_cons.1 hb).1 hc
  · rintro ⟨hq, t, rfl, h⟩
    exact .plain hq hc h

theorem escaped_iff (he : Escaped e c) :
    Body quote (e ++ b) s ↔ ∃ t, s = c :: t ∧ Body quote b t := by
  constructor
  · intro h
    generalize hb : e ++ b = a at h
    cases h with
    | nil =>
      obtain ⟨f, rfl⟩ := he.exists_cons
      simp at hb
    | plain _ hback _ =>
      obtain ⟨f, rfl⟩ := he.exists_cons
      exact absurd (List.cons_eq_cons.1 hb).1.symm hback
    | escaped hf h =>
      obtain ⟨rfl, rfl⟩ := he.unique hf hb
      exact ⟨_, rfl, h⟩
  · rintro ⟨t, rfl, h⟩
    exact .escaped he h

end Body

/-- What is read of an escaped text is the text, and then what is read behind it. -/
theorem body_escape_append_iff (hq : quote = '\'' ∨ quote = '"') (s : List Char) :
    Body quote (escape [quote] s ++ b) t ↔ ∃ u, t = s ++ u ∧ Body quote b u := by
  induction s generalizing t with
  | nil => simp
  | cons c s ih =>
    have hstep : Body quote (escape [quote] (c :: s) ++ b) t ↔
        ∃ u, t = c :: u ∧ Body quote (escape [quote] s ++ b) u := by
      rw [escape_cons, List.append_assoc]
      rcases escapeChar_cases hq c with ⟨hc, hne, hback, -⟩ | he
      · rw [hc, List.singleton_append, Body.cons_iff hback, and_iff_right hne]
      · exact Body.escaped_iff he
    rw [hstep]
    constructor
    · rintro ⟨v, rfl, hv⟩
      obtain ⟨u, rfl, hu⟩ := ih.1 hv
      exact ⟨u, rfl, hu⟩
    · rintro ⟨u, rfl, hu⟩
      exact ⟨s ++ u, rfl, ih.2 ⟨u, rfl, hu⟩⟩

theorem body_escape_iff (hq : quote = '\'' ∨ quote = '"') :
    Body quote (escape [quote] s) t ↔ t = s := by
  have h := body_escape_append_iff (b := []) (t := t) hq s
  simpa [Body.nil_iff] using h

theorem isPrintable_of_mem_escape (hq : quote = '\'' ∨ quote = '"') (hc : c ∈ escape [quote] s) :
    Text.isPrintable c := by
  obtain ⟨d, -, hd⟩ := List.mem_flatMap.1 hc
  rcases escapeChar_cases hq d with ⟨he, -, -, hp⟩ | he
  · rw [he, List.mem_singleton] at hd
    rwa [hd]
  · exact he.isPrintable c hd

/-- A quote or a backslash stands inside of an escape, with whole characters before and behind. -/
theorem Body.exists_escaped (h : Body quote b s) (hb : b = u ++ c :: v)
    (hc : c = quote ∨ c = '\\') : ∃ x e f y,
      u = x ++ e ∧ v = f ++ y ∧ (∃ d, Escaped (e ++ c :: f) d) ∧
        (∃ t, Body quote x t) ∧ ∃ t, Body quote y t := by
  induction h generalizing u with
  | nil => simp at hb
  | @plain d b s hq hback h ih =>
    cases u with
    | nil =>
      obtain ⟨rfl, -⟩ := List.cons_eq_cons.1 hb
      exact absurd hc (not_or.2 ⟨hq, hback⟩)
    | cons a u =>
      obtain ⟨rfl, htail⟩ := List.cons_eq_cons.1 hb
      obtain ⟨x, e, f, y, rfl, rfl, he, ⟨t, hx⟩, hy⟩ := ih htail
      exact ⟨d :: x, e, f, y, rfl, rfl, he, ⟨_, .plain hq hback hx⟩, hy⟩
  | @escaped g b s d hg h ih =>
    rcases List.append_eq_append_iff.1 hb with ⟨z, rfl, hz⟩ | ⟨z, rfl, hz⟩
    · obtain ⟨x, e, f, y, rfl, rfl, he, ⟨t, hx⟩, hy⟩ := ih hz
      exact ⟨g ++ x, e, f, y, by simp, rfl, he, ⟨_, .escaped hg hx⟩, hy⟩
    · cases z with
      | nil =>
        obtain ⟨x, e, f, y, hu, rfl, he, ⟨t, hx⟩, hy⟩ := ih (u := []) hz.symm
        obtain ⟨rfl, rfl⟩ := List.append_eq_nil_iff.1 hu.symm
        have hu : Body quote u [d] := by simpa using Body.escaped hg .nil
        exact ⟨u, [], f, y, by simp, rfl, he, ⟨_, hu⟩, hy⟩
      | cons a z =>
        obtain ⟨rfl, rfl⟩ := List.cons_eq_cons.1 hz
        exact ⟨[], u, z, b, rfl, rfl, ⟨d, hg⟩, ⟨_, .nil⟩, ⟨s, h⟩⟩

section Cut

theorem cut?_plain (hne : c ≠ quote) (hback : c ≠ '\\') (s : List Char) :
    cut? quote (c :: s) = (cut? quote s).map fun r ↦ (c :: r.1, r.2) := by
  rw [cut?, if_neg hne]
  exact fun _ _ h ↦ absurd h hback

theorem cut?_plain_append (hs : ∀ c ∈ s, c ≠ quote ∧ c ≠ '\\') (t : List Char) :
    cut? quote (s ++ t) = (cut? quote t).map fun r ↦ (s ++ r.1, r.2) := by
  induction s with
  | nil => simp
  | cons c s ih =>
    obtain ⟨hc, hs⟩ := List.forall_mem_cons.1 hs
    rw [List.cons_append, cut?_plain hc.1 hc.2, ih hs, Option.map_map]
    rfl

theorem Escaped.cut?_append (hq : quote = '\'' ∨ quote = '"') (h : Escaped e c) (t : List Char) :
    cut? quote (e ++ t) = (cut? quote t).map fun r ↦ (e ++ r.1, r.2) := by
  cases h with
  | letter => rfl
  | @codePoint digits _ _ _ hn =>
    have hplain : ∀ d ∈ '\x7b' :: (digits ++ ['\x7d']), d ≠ quote ∧ d ≠ '\\' := by
      simp only [List.forall_mem_cons, List.forall_mem_append]
      refine ⟨?_, ?_, ?_, by simp⟩
      · rcases hq with rfl | rfl <;> decide
      · intro d hd
        obtain ⟨k, hk⟩ := exists_hexValue? hn hd
        refine ⟨?_, ne_of_hexValue? hk (by decide)⟩
        rcases hq with rfl | rfl <;> exact ne_of_hexValue? hk (by decide)
      · rcases hq with rfl | rfl <;> decide
    have hcut := cut?_plain_append hplain t
    have hskip (x : List Char) : cut? quote ('\\' :: 'u' :: x) =
        (cut? quote x).map fun r ↦ ('\\' :: 'u' :: r.1, r.2) := rfl
    rw [List.cons_append, List.cons_append, hskip, hcut, Option.map_map]
    rfl

/-- A literal is cut at the quote behind its inside, and nowhere before. -/
theorem Body.cut?_append (hq : quote = '\'' ∨ quote = '"') (h : Body quote b s)
    (rest : List Char) : cut? quote (b ++ quote :: rest) = some (b, rest) := by
  induction h with
  | nil =>
    rcases hq with rfl | rfl <;> rfl
  | plain hne hback _ ih => rw [List.cons_append, cut?_plain hne hback, ih, Option.map_some]
  | escaped he _ ih => rw [List.append_assoc, he.cut?_append hq, ih, Option.map_some]

end Cut

theorem cut?_charLiteral (s rest : List Char) :
    cut? '\'' ((charLiteral s).toList.tail ++ rest) = some (escape ['\''] s, rest) := by
  have hbody : Body '\'' (escape ['\''] s) s := (body_escape_iff (.inl rfl)).2 rfl
  simpa [charLiteral] using hbody.cut?_append (.inl rfl) rest

theorem cut?_stringLiteral (s rest : List Char) :
    cut? '"' ((stringLiteral s).toList.tail ++ rest) = some (escape ['"'] s, rest) := by
  have hbody : Body '"' (escape ['"'] s) s := (body_escape_iff (.inr rfl)).2 rfl
  simpa [stringLiteral] using hbody.cut?_append (.inr rfl) rest

/-- An escaped text stands for that text and for no other, so that no two texts are escaped alike.
All of it is printable, so it holds no break; quotes and backslashes stand inside of escapes, and a
literal goes on to its last character. Behind an escaped text, whatever comes is read on its own. -/
theorem escape_stands_for (hq : quote = '\'' ∨ quote = '"') (s : List Char) :
    (∀ t, Body quote (escape [quote] s) t ↔ t = s) ∧
    (∀ c ∈ escape [quote] s, Text.isPrintable c ∧ Text.isBreak c = false ∧ c ≠ '\t') ∧
    (∀ u c v, escape [quote] s = u ++ c :: v → c = quote ∨ c = '\\' → ∃ x e f y,
      u = x ++ e ∧ v = f ++ y ∧ (∃ d, Escaped (e ++ c :: f) d) ∧
        (∃ t, Body quote x t) ∧ ∃ t, Body quote y t) ∧
    (∀ rest, cut? '\'' ((charLiteral s).toList.tail ++ rest) = some (escape ['\''] s, rest)) ∧
    (∀ rest, cut? '"' ((stringLiteral s).toList.tail ++ rest) = some (escape ['"'] s, rest)) ∧
    Function.Injective (escape [quote]) ∧
    (∀ t, escape [quote] (s ++ t) = escape [quote] s ++ escape [quote] t) ∧
    ∀ b t, Body quote (escape [quote] s ++ b) t ↔ ∃ u, t = s ++ u ∧ Body quote b u := by
  have hbody (s t : List Char) : Body quote (escape [quote] s) t ↔ t = s := body_escape_iff hq
  refine ⟨hbody s, ?_, ?_, cut?_charLiteral s, cut?_stringLiteral s, ?_, escape_append [quote] s,
    fun b t ↦ body_escape_append_iff hq s⟩
  · intro c hc
    have hp := isPrintable_of_mem_escape hq hc
    refine ⟨hp, isBreak_of_isPrintable hp, ?_⟩
    rintro rfl
    exact absurd hp (by decide)
  · intro u c v hu
    exact ((hbody s s).2 rfl).exists_escaped hu
  · intro s t h
    exact (hbody t s).1 (h ▸ (hbody s s).2 rfl)

theorem escape_stands_for_nul :
    let s := ['\x00', '7', '\u2028', '\x7d', '"']
    let b := "\\07\\u\x7b2028\x7d\x7d\\\"".toList
    ('"' = '\'' ∨ '"' = '"') ∧ (∀ t, Body '"' b t ↔ t = s) ∧ ∀ c ∈ b, Text.isPrintable c := by
  intro s b
  have hb : escape ['"'] s = b := by decide +kernel
  have hq : '"' = '\'' ∨ '"' = '"' := .inr rfl
  obtain ⟨hbody, hprintable, -⟩ := escape_stands_for hq s
  rw [hb] at hbody hprintable
  exact ⟨hq, hbody, fun c hc ↦ (hprintable c hc).1⟩

end Recognizer.Code
