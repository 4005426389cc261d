import Recognizer.Automaton.Basic
/-!
Insertion of a word: follow the edges that are there, then add one fresh path for what is left of
the word. The final state is shared, so a word that runs through it, or ends short of it, conflicts
with a word inserted before. Main statement: the fresh path spells the rest of the word.
-/

namespace Recognizer.Automaton

/-- Where the edges along a word give out, and what is left of the word there. -/
def follow (a : Automaton) : State → Word → State × Word
  | q, [] => (q, [])
  | q, c :: w => match a.next? q c with
    | some p => a.follow p w
    | none => (q, c :: w)

/-- The edges that spell a word from `q` to the final state, through states numbered from `fresh`
on. -/
def path (fresh : State) (q : State) : Word → List Edge
  | [] => []
  | [c] => [⟨q, c, State.final⟩]
  | c :: w => ⟨q, c, fresh⟩ :: path (fresh + 1) fresh w

/-- The number of symbols after which a word read from `q` runs through the final state, or ends
elsewhere. -/
def clash? (a : Automaton) : State → Word → Option Nat
  | q, [] => if q = State.final then none else some 0
  | q, c :: w =>
    if q = State.final then some 0
    else match a.next? q c with
      | some p => (a.clash? p w).map (· + 1)
      | none => none

/-- The number of symbols after which a word turns out to conflict with one inserted before. -/
def conflictDepth? (a : Automaton) (w : Word) : Option Nat := a.clash? State.start w

def newEdges (a : Automaton) (w : Word) : List Edge :=
  let (q, rest) := a.follow State.start w
  path a.size q rest

def insert (a : Automaton) (w : Word) : Automaton where
  size := a.size + ((a.follow State.start w).2.length - 1)
  edges := a.edges ++ a.newEdges w
  words := a.words ++ [w]
  conflicts := if (a.conflictDepth? w).isSome then a.conflicts ++ [w] else a.conflicts

theorem map_symbol_path (fresh q : State) (w : Word) :
    (path fresh q w).map (·.symbol) = w := by
  induction w generalizing fresh q with
  | nil => rfl
  | cons c w ih => cases w <;> simp_all [path]

theorem follow_eq_run (a : Automaton) (q : State) (w : Word) :
    ∃ v, v ++ (a.follow q w).2 = w ∧ a.run q v = (a.follow q w).1 := by
  induction w generalizing q with
  | nil => exact ⟨[], rfl, rfl⟩
  | cons c w ih =>
    rw [follow]
    cases h : a.next? q c with
    | none => exact ⟨[], rfl, rfl⟩
    | some p =>
      obtain ⟨v, hv, hr⟩ := ih p
      exact ⟨c :: v, by simp [hv], by simpa [step, h] using hr⟩

end Recognizer.Automaton
