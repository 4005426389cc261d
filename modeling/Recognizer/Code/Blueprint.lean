import Recognizer.Code.StateType
import Recognizer.Store.Basic
/-!
What code is written from: the answers that an automaton gives about itself, however it is kept.
-/

namespace Recognizer

namespace Code

structure Blueprint where
  states : List State
  /-- Those that matching can go on from. -/
  interior : List State
  /-- The edges that leave a number, in order. -/
  edgesAt : Int → List (Char × State)
  transition : Int → String → State
  words : List Word
  conflicts : List Word

def Blueprint.stateType (a : Blueprint) : StateType := .ofStates a.states

end Code

def Automaton.blueprint (a : Automaton) : Code.Blueprint where
  states := a.states
  interior := a.interior
  edgesAt := a.edgesAt
  transition := a.transition
  words := a.words
  conflicts := a.conflicts

namespace Automaton

variable (a : Automaton)

@[simp] theorem states_blueprint : a.blueprint.states = a.states := rfl

@[simp] theorem interior_blueprint : a.blueprint.interior = a.interior := rfl

@[simp] theorem edgesAt_blueprint : a.blueprint.edgesAt = a.edgesAt := rfl

@[simp] theorem stateType_blueprint : a.blueprint.stateType = a.stateType := rfl

@[simp] theorem transition_blueprint (q : State) (c : Char) :
    a.blueprint.transition q (.ofList [c]) = a.step q c := a.transition_singleton q c

end Automaton

def Store.blueprint (s : Store) : Code.Blueprint where
  states := s.states
  interior := s.interior
  edgesAt := s.edgesAt
  transition := s.transition
  words := s.words
  conflicts := s.conflicts

instance : Coe Automaton Code.Blueprint := ⟨Automaton.blueprint⟩

instance : Coe Store Code.Blueprint := ⟨Store.blueprint⟩

end Recognizer
