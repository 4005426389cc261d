import Recognizer.Automaton.Basic
/-!
An automaton as it is kept while words go in: its states in the order in which they were made, its
edges in the order in which they were added, and an index that finds where an edge leads. The three
are records of their own. Nothing here ties them to one another; insertion has to keep them in step.
-/

namespace Recognizer

structure Store where
  /-- Whether words that conflict are refused. -/
  strict : Bool := false
  verbose : Bool := false
  states : List State := [State.start, State.final, State.fail]
  edges : List Edge := []
  words : List Word := []
  conflicts : List Word := []
  /-- An entry hides the older ones of its key, which stand behind it. -/
  index : List ((State × Char) × State) := []
deriving DecidableEq

namespace Store

def next? (s : Store) (q : State) (c : Char) : Option State := s.index.lookup (q, c)

def step (s : Store) (q : State) (c : Char) : State := (s.next? q c).getD State.fail

def run (s : Store) (q : State) (w : Word) : State := w.foldl s.step q

/-- A step asked for by any number and any text, looked up in the index alone. -/
def transition (s : Store) (q : Int) (symbol : String) : State :=
  match q, symbol.toList with
  | .ofNat q, [c] => s.step q c
  | _, _ => State.fail

def interior (s : Store) : List State :=
  s.states.filter fun q ↦ q ≠ State.final ∧ q ≠ State.fail

/-- The edges recorded for a number, whatever the index says. -/
def edgesAt (s : Store) (q : Int) : List (Char × State) :=
  (s.edges.filter fun e ↦ e.source = q).map fun e ↦ (e.symbol, e.destination)

/-- What the store keeps, as one automaton; the states count, and the index is left out. -/
def automaton (s : Store) : Automaton where
  size := s.states.length
  edges := s.edges
  words := s.words
  conflicts := s.conflicts

end Store

end Recognizer
