import Mathlib.Data.List.Basic
/-!
Tokens of the code that is written: names, numbers, literals and marks, scanned one character at a
time. Literals keep to one line, and their escapes are decoded as they are scanned.
-/

namespace Recognizer.Code

inductive Token
  | name (s : List Char)
  | number (n : Nat)
  | character (c : Char)
  | text (s : List Char)
  | mark (s : List Char)
  /-- What is no token: nothing reads it. -/
  | broken
deriving DecidableEq

/-- How much of an escape has been scanned: nothing, its backslash, also the letter of a code
point, or digits of that. -/
inductive Escape
  | none
  | backslash
  | letter
  | digits (value count : Nat)
deriving DecidableEq

inductive Scan
  | between
  | word (s : List Char)
  | operator (c : Char)
  | literal (quote : Char) (s : List Char) (e : Escape)
deriving DecidableEq

def isWordChar (c : Char) : Bool := c.isAlphanum || c == '_'

def isBlankChar (c : Char) : Bool := c == ' ' || c == '\n'

/-- Marks of two characters. -/
def operators : List (List Char) :=
  [['=', '>'], ['-', '>'], ['=', '='], ['+', '='], [':', ':']]

def unescape? : Char → Option Char
  | 'n' => some '\n'
  | 'r' => some '\r'
  | 't' => some '\t'
  | '0' => some '\x00'
  | '\\' => some '\\'
  | '\'' => some '\''
  | '"' => some '"'
  | _ => none

def hexValue? (c : Char) : Option Nat :=
  if c.isDigit then some (c.toNat - '0'.toNat)
  else if 'a' ≤ c ∧ c ≤ 'f' then some (c.toNat - 'a'.toNat + 10)
  else if 'A' ≤ c ∧ c ≤ 'F' then some (c.toNat - 'A'.toNat + 10)
  else none

/-- The character of a code point, unless there is none. -/
def scalar? (n : Nat) : Option Char := if n.isValidChar then some (Char.ofNat n) else none

def Token.ofWord (s : List Char) : Token :=
  if s.all Char.isDigit then .number (Nat.ofDigitChars 10 s 0)
  else if (s.headD '0').isDigit then .broken
  else .name s

def Token.ofLiteral (quote : Char) (s : List Char) : Token :=
  if quote = '"' then .text s
  else match s with
    | [c] => .character c
    | _ => .broken

namespace Scan

def lost : Scan × List Token := (between, [.broken])

def start (c : Char) : Scan × List Token :=
  if isBlankChar c then (between, [])
  else if c = '\'' ∨ c = '"' then (literal c [] .none, [])
  else if isWordChar c then (word [c], [])
  else if operators.any (·.head? = some c) then (operator c, [])
  else (between, [.mark [c]])

def literalStep (quote : Char) (s : List Char) (e : Escape) (c : Char) : Scan × List Token :=
  match e with
  | .none =>
    if c = '\n' ∨ c = '\r' ∨ c = '\t' then lost
    else if c = quote then (between, [.ofLiteral quote s])
    else if c = '\\' then (literal quote s .backslash, [])
    else (literal quote (s ++ [c]) .none, [])
  | .backslash =>
    if c = 'u' then (literal quote s .letter, [])
    else match unescape? c with
      | some d => (literal quote (s ++ [d]) .none, [])
      | none => lost
  | .letter => if c = '\x7b' then (literal quote s (.digits 0 0), []) else lost
  | .digits value count =>
    if c = '\x7d' then match scalar? value with
      | some d => if count = 0 then lost else (literal quote (s ++ [d]) .none, [])
      | none => lost
    else match hexValue? c with
      | some d => if count < 6 then (literal quote s (.digits (16 * value + d) (count + 1)), [])
        else lost
      | none => lost

def step : Scan → Char → Scan × List Token
  | between, c => start c
  | word s, c =>
    if isWordChar c then (word (s ++ [c]), [])
    else
      let (next, tokens) := start c
      (next, .ofWord s :: tokens)
  | operator b, c =>
    if [b, c] ∈ operators then (between, [.mark [b, c]])
    else
      let (next, tokens) := start c
      (next, .mark [b] :: tokens)
  | literal quote s e, c => literalStep quote s e c

def run : Scan → List Char → Scan × List Token
  | s, [] => (s, [])
  | s, c :: text =>
    let (next, tokens) := s.step c
    let (last, more) := next.run text
    (last, tokens ++ more)

def finish : Scan → List Token
  | between => []
  | word s => [.ofWord s]
  | operator c => [.mark [c]]
  | literal _ _ _ => [.broken]

end Scan

def tokens (text : List Char) : List Token :=
  let (last, tokens) := Scan.between.run text
  tokens ++ last.finish

def tokensIn (code : String) : List Token := tokens code.toList

namespace Scan

variable {s t u : Scan} {text more : List Char} {ts us : List Token} {c : Char}

@[simp] theorem run_nil (s : Scan) : s.run [] = (s, []) := rfl

theorem run_cons (s : Scan) (c : Char) (text : List Char) :
    s.run (c :: text) =
      (((s.step c).1.run text).1, (s.step c).2 ++ ((s.step c).1.run text).2) := rfl

theorem run_append (s : Scan) (text more : List Char) : s.run (text ++ more) =
    (((s.run text).1.run more).1, (s.run text).2 ++ ((s.run text).1.run more).2) := by
  induction text generalizing s with
  | nil => simp
  | cons c text ih => simp [run_cons, ih]

theorem run_trans (h : s.run text = (t, ts)) (h' : t.run more = (u, us)) :
    s.run (text ++ more) = (u, ts ++ us) := by
  rw [run_append, h, h']

theorem run_blanks (n : Nat) : between.run (List.replicate n ' ') = (between, []) := by
  induction n with
  | zero => rfl
  | succ n ih =>
    rw [List.replicate_succ, run_cons]
    have hs : between.step ' ' = (between, []) := rfl
    rw [hs, ih]
    rfl

theorem run_word (s : List Char) (h : text.all isWordChar) :
    (word s).run text = (word (s ++ text), []) := by
  induction text generalizing s with
  | nil => simp
  | cons c text ih =>
    simp only [List.all_cons, Bool.and_eq_true] at h
    have hs : (word s).step c = (word (s ++ [c]), []) := by simp [step, h.1]
    rw [run_cons, hs, ih _ h.2]
    simp

/-- A line ends whatever is being scanned. -/
theorem step_feed (s : Scan) : s.step '\n' = (between, s.finish) := by
  have hstart : start '\n' = (between, []) := rfl
  cases s with
  | between => rfl
  | word s =>
    have hw : isWordChar '\n' = false := by decide
    simp [step, hw, hstart, finish]
  | operator b =>
    have ho : [b, '\n'] ∉ operators := by simp [operators]
    simp [step, ho, hstart, finish]
  | literal quote s e =>
    cases e with
    | none => simp [step, literalStep, lost, finish]
    | backslash => simp [step, literalStep, unescape?, lost, finish]
    | letter => simp [step, literalStep, lost, finish]
    | digits value count =>
      have hx : hexValue? '\n' = Option.none := by decide
      simp [step, literalStep, hx, lost, finish]

theorem run_line (line : List Char) :
    between.run (line ++ ['\n']) = (between, tokens line) := by
  rw [run_append, run_cons, step_feed]
  simp [tokens]

theorem start_of_isWordChar (h : isWordChar c) : start c = (word [c], []) := by
  have hne {d : Char} (hd : isWordChar d = false) : c ≠ d := by
    intro hcd
    rw [hcd, hd] at h
    exact absurd h (by decide)
  have hblank : isBlankChar c = false := by
    simp [isBlankChar, hne (d := ' ') rfl, hne (d := '\n') rfl]
  have hquote : ¬ (c = '\'' ∨ c = '"') := by simp [hne (d := '\'') rfl, hne (d := '"') rfl]
  simp [start, hblank, hquote, h]

end Scan

theorem tokens_append {s t : List Char} {ts : List Token}
    (h : Scan.between.run s = (.between, ts)) : tokens (s ++ t) = ts ++ tokens t := by
  simp [tokens, Scan.run_append, h]

theorem tokensIn_empty_append (ts : List Token) : tokensIn "" ++ ts = ts := (rfl)

theorem tokens_blanks (n : Nat) (s : List Char) : tokens (List.replicate n ' ' ++ s) = tokens s :=
  tokens_append (Scan.run_blanks n)

theorem tokens_word {s t : List Char} (hs : s ≠ []) (hall : s.all isWordChar)
    (ht : isWordChar (t.headD ' ') = false) : tokens (s ++ t) = .ofWord s :: tokens t := by
  cases s with
  | nil => exact absurd rfl hs
  | cons b s =>
    simp only [List.all_cons, Bool.and_eq_true] at hall
    have hword : Scan.between.run (b :: s) = (.word (b :: s), []) := by
      have hb : Scan.between.step b = (.word [b], []) := Scan.start_of_isWordChar hall.1
      rw [Scan.run_cons, hb, Scan.run_word _ hall.2]
      rfl
    cases t with
    | nil =>
      rw [List.append_nil, tokens, hword]
      rfl
    | cons c t =>
      have hend : (Scan.word (b :: s)).step c =
          ((Scan.start c).1, .ofWord (b :: s) :: (Scan.start c).2) := by
        rw [List.headD_cons] at ht
        simp [Scan.step, ht]
      have hstart : Scan.between.step c = Scan.start c := rfl
      rw [tokens, Scan.run_append, hword, Scan.run_cons, hend]
      simp [tokens, Scan.run_cons, hstart]

theorem toList_number (n : Nat) : (toString n).toList = Nat.toDigits 10 n := Nat.toList_repr

theorem isDigit_of_mem_number {n : Nat} {c : Char} (hc : c ∈ Nat.toDigits 10 n) : c.isDigit :=
  Nat.isDigit_of_mem_toDigits (by decide) (by decide) hc

theorem all_isDigit_toDigits (n : Nat) : (Nat.toDigits 10 n).all Char.isDigit :=
  List.all_eq_true.2 fun _ ↦ isDigit_of_mem_number

theorem all_isWordChar_toDigits (n : Nat) : (Nat.toDigits 10 n).all isWordChar := by
  rw [List.all_eq_true]
  intro c hc
  simp [isWordChar, Char.isAlphanum, isDigit_of_mem_number hc]

theorem tokens_number {t : List Char} (n : Nat) (ht : isWordChar (t.headD ' ') = false) :
    tokens ((toString n).toList ++ t) = .number n :: tokens t := by
  rw [toList_number, tokens_word Nat.toDigits_ne_nil (all_isWordChar_toDigits n) ht, Token.ofWord,
    if_pos (all_isDigit_toDigits n), Nat.ofDigitChars_ten_toDigits]

theorem tokens_name {s t : List Char} (hs : (s.headD '0').isDigit = false)
    (hall : s.all isWordChar) (ht : isWordChar (t.headD ' ') = false) :
    tokens (s ++ t) = .name s :: tokens t := by
  cases s with
  | nil => exact absurd hs (by decide)
  | cons b s =>
    rw [List.headD_cons] at hs
    have hdigit : ¬ (b :: s).all Char.isDigit := by simp [hs]
    rw [tokens_word (by simp) hall ht, Token.ofWord, if_neg hdigit, List.headD_cons, hs]
    rfl

end Recognizer.Code
