import Recognizer.Automaton.Basic
/-!
The unsigned integer types that hold state numbers. Main statement: states numbered without gaps go
into eight bits if there are at most 256 of them, and into sixteen if there are at most 65536.
-/

namespace Recognizer

inductive StateType
  | u8
  | u16
  | u32
deriving DecidableEq

namespace StateType

def name : StateType → String
  | u8 => "u8"
  | u16 => "u16"
  | u32 => "u32"

def bits : StateType → Nat
  | u8 => 8
  | u16 => 16
  | u32 => 32

/-- The narrowest type that reaches up to a number; the widest serves all larger numbers. -/
def upTo (top : State) : StateType :=
  if top ≤ 0xFF then u8 else if top ≤ 0xFFFF then u16 else u32

/-- The narrowest type for all of the states. -/
def ofStates (states : List State) : StateType := upTo (states.max?.getD 0)

theorem max?_range_succ (n : Nat) : (List.range (n + 1)).max? = some n := by
  rw [List.max?_eq_some_iff]
  refine ⟨by simp, fun m hm ↦ ?_⟩
  exact Nat.lt_succ_iff.1 (List.mem_range.1 hm)

theorem ofStates_range (n : Nat) : ofStates (List.range n) =
    if n ≤ 256 then u8 else if n ≤ 65536 then u16 else u32 := by
  cases n with
  | zero => rfl
  | succ n =>
    rw [ofStates, max?_range_succ, Option.getD_some, upTo]
    simp only [Nat.succ_le_succ_iff]

end StateType

def Automaton.stateType (a : Automaton) : StateType := .ofStates a.states

end Recognizer
