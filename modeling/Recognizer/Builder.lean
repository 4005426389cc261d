import Recognizer.Automaton.Insert
import Recognizer.Warning
/-!
Building an automaton from offers, each of which is taken or refused as a whole; that insertion into
a store, which goes step by step, comes to the same is proved from this. Main statement: an offer of
a word is refused only for a conflict, and only when strict.
-/

namespace Recognizer

inductive Refusal
  | notASequence (offered : Value)
  | emptyWord
  | notACharacter (offered symbol : Value)
  | conflict (word : Word) (depth : Nat)

def Refusal.message : Refusal → String
  | .notASequence offered => s!"'{offered.kind}' object is not iterable"
  | .emptyWord => "Cannot insert an empty word."
  | .notACharacter offered symbol =>
    s!"Word {offered.quoted} contains {symbol.quoted}, which is not a single character."
  | .conflict word depth =>
    let word := Text.quoted word
    s!"Keyword {word} runs into a prefix-related keyword after {depth} character(s)."

namespace Value

def symbols : List Value → Except Value Word
  | [] => .ok []
  | v :: values => match v.char? with
    | none => .error v
    | some c => (symbols values).map (c :: ·)

/-- The word that a value spells, as a text or as a list of characters. -/
def word : Value → Except Refusal Word
  | .text s => if s.toList = [] then .error .emptyWord else .ok s.toList
  | .list [] => .error .emptyWord
  | .list values => (symbols values).mapError (.notACharacter (.list values))
  | v => .error (.notASequence v)

end Value

structure Notes where
  warnings : List Warning := []
  /-- One line for each new edge. -/
  narration : List String := []

instance : Append Notes where
  append m n := ⟨m.warnings ++ n.warnings, m.narration ++ n.narration⟩

@[simp] theorem Notes.warnings_append (m n : Notes) :
    (m ++ n).warnings = m.warnings ++ n.warnings := rfl

@[simp] theorem Notes.narration_append (m n : Notes) :
    (m ++ n).narration = m.narration ++ n.narration := rfl

@[simp] theorem Notes.append_empty (n : Notes) : n ++ ({} : Notes) = n := by
  change Notes.mk _ _ = n
  simp

theorem Notes.append_assoc (l m n : Notes) : l ++ m ++ n = l ++ (m ++ n) := by
  change Notes.mk _ _ = Notes.mk _ _
  simp

structure Builder where
  automaton : Automaton := .empty
  /-- Whether words that conflict are refused. -/
  strict : Bool := false
  verbose : Bool := false

namespace Builder

def narrate (word : Word) (e : Edge) : String :=
  let word := Text.quoted word
  let source := State.label e.source
  let symbol := Text.quoted [e.symbol]
  let destination := State.label e.destination
  s!"{word}: {source} --{symbol}--> {destination}"

def take (b : Builder) (w : Word) : Builder := { b with automaton := b.automaton.insert w }

def notes (b : Builder) (w : Word) : Notes where
  warnings := (b.automaton.conflictDepth? w).toList.map (.conflict w)
  narration := if b.verbose then (b.automaton.newEdges w).map (narrate w) else []

def offerWord (b : Builder) (w : Word) : Except Refusal (Builder × Notes) :=
  match b.strict, b.automaton.conflictDepth? w with
  | true, some depth => .error (.conflict w depth)
  | _, _ => .ok (b.take w, b.notes w)

def offer (b : Builder) (v : Value) : Except Refusal (Builder × Notes) :=
  v.word.bind b.offerWord

/-- Offers in turn, up to the first that is refused; the notes are those of the offers before. -/
def offerAll (b : Builder) : List Value → Notes × Except Refusal Builder
  | [] => ({}, .ok b)
  | v :: values => match b.offer v with
    | .error refusal => ({}, .error refusal)
    | .ok (b, notes) =>
      let (more, result) := b.offerAll values
      (notes ++ more, result)

theorem offerWord_eq_error_iff {b : Builder} {w : Word} {r : Refusal} :
    b.offerWord w = .error r ↔
      b.strict ∧ ∃ depth, b.automaton.conflictDepth? w = some depth ∧ r = .conflict w depth := by
  unfold offerWord
  split
  · next depth hs hd => simp [hs, hd, eq_comm]
  · next h =>
    simp only [reduceCtorEq, false_iff, not_and, not_exists]
    intro hs depth hd
    exact absurd hd (h depth hs)

end Builder

end Recognizer
