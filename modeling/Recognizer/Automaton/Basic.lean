/-!
Finite automata that recognize words. Edges are kept in the order in which they were added; a step
that no edge allows leads to the failing state, which nothing leaves.
-/

namespace Recognizer

/-- The symbols are Unicode scalar values, so that a lone surrogate is none. -/
abbrev Word := List Char

abbrev State := Nat

namespace State

abbrev start : State := 0

abbrev final : State := 1

abbrev fail : State := 2

/-- The name of a state in reports; any number has one. -/
def label (q : Int) : String :=
  if q = final then "FINAL" else if q = fail then "FAIL" else toString q

end State

structure Edge where
  source : State
  symbol : Char
  destination : State
deriving DecidableEq

/-- States are numbered from zero up to `size`. -/
structure Automaton where
  size : Nat
  edges : List Edge
  words : List Word
  /-- Those of them that extend a word already accepted, or are a prefix of one. -/
  conflicts : List Word
deriving DecidableEq

namespace Automaton

def empty : Automaton := ⟨3, [], [], []⟩

def states (a : Automaton) : List State := List.range a.size

/-- The states that matching can be in and go on from. -/
def interior (a : Automaton) : List State :=
  a.states.filter fun q ↦ q ≠ State.final ∧ q ≠ State.fail

def next? (a : Automaton) (q : State) (c : Char) : Option State :=
  (a.edges.find? fun e ↦ e.source = q ∧ e.symbol = c).map (·.destination)

def step (a : Automaton) (q : State) (c : Char) : State := (a.next? q c).getD State.fail

def run (a : Automaton) (q : State) (w : Word) : State := w.foldl a.step q

def trace (a : Automaton) (q : State) : Word → List State
  | [] => [q]
  | c :: w => q :: a.trace (a.step q c) w

def edgesFrom (a : Automaton) (q : State) : List (Char × State) :=
  (a.edges.filter (·.source = q)).map fun e ↦ (e.symbol, e.destination)

/-- A step asked for by any number and any text: one that is no state, or no single character,
leads to the failing state. -/
def transition (a : Automaton) (q : Int) (symbol : String) : State :=
  match q, symbol.toList with
  | .ofNat q, [c] => a.step q c
  | _, _ => State.fail

/-- The edges that leave a number, which need not be a state. -/
def edgesAt (a : Automaton) : Int → List (Char × State)
  | .ofNat q => a.edgesFrom q
  | .negSucc _ => []

@[simp] theorem run_nil (a : Automaton) (q : State) : a.run q [] = q := rfl

@[simp] theorem run_cons (a : Automaton) (q : State) (c : Char) (w : Word) :
    a.run q (c :: w) = a.run (a.step q c) w := rfl

theorem run_append (a : Automaton) (q : State) (v w : Word) :
    a.run q (v ++ w) = a.run (a.run q v) w := List.foldl_append

theorem mem_states {a : Automaton} {q : State} : q ∈ a.states ↔ q < a.size := List.mem_range

theorem mem_interior {a : Automaton} {q : State} :
    q ∈ a.interior ↔ q ∈ a.states ∧ q ≠ State.final ∧ q ≠ State.fail := by
  simp [interior]

theorem transition_singleton (a : Automaton) (q : State) (c : Char) :
    a.transition q (.ofList [c]) = a.step q c := by
  simp [transition]

theorem edgesAt_natCast (a : Automaton) (q : State) : a.edgesAt q = a.edgesFrom q := rfl

end Automaton

end Recognizer
