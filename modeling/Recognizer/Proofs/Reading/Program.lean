import Mathlib.Data.List.Basic
/-!
What the written code says, once read: a machine that takes characters one at a time, a driver that
counts them, and the assertions of its tests.
-/

namespace Recognizer.Code

inductive Action
  | refuse
  | call (name : List Char)
deriving DecidableEq

structure Function where
  name : List Char
  type : List Char
  arms : List (Char × Nat)
  default : Nat
deriving DecidableEq

/-- The first arm for the character decides. -/
def Function.apply (f : Function) (c : Char) : Nat :=
  ((f.arms.find? (·.1 = c)).map (·.2)).getD f.default

inductive Fault
  | unreachable
  /-- A function that is missing, or defined more than once. -/
  | unresolved (name : List Char)
deriving DecidableEq

structure Machine where
  dispatch : List (Nat × Action)
  functions : List Function
deriving DecidableEq

def Machine.call (m : Machine) (name : List Char) (c : Char) : Except Fault Nat :=
  match m.functions.filter (·.name = name) with
  | [f] => .ok (f.apply c)
  | _ => .error (.unresolved name)

/-- Whether the machine moves, and the state that it is in then. -/
def Machine.consume (m : Machine) (q : Nat) (c : Char) : Except Fault (Bool × Nat) :=
  match m.dispatch.find? (·.1 = q) with
  | none => .error .unreachable
  | some (_, .refuse) => .ok (false, q)
  | some (_, .call name) => (m.call name c).map fun p ↦ (true, p)

structure Driver where
  start : Nat
  accept : Nat
  reject : Nat
  type : List Char
deriving DecidableEq

def Driver.check (d : Driver) (m : Machine) (q consumed : Nat) :
    List Char → Except Fault (Option Nat)
  | [] => .ok none
  | c :: text => do
    let (moved, next) ← m.consume q c
    let count := if moved then consumed + 1 else consumed
    if next = d.accept then .ok (some count)
    else if next = d.reject then .ok none
    else d.check m next count text

def Driver.matchKeyword (d : Driver) (m : Machine) (text : List Char) :
    Except Fault (Option Nat) := d.check m d.start 0 text

/-- A text, and what matching it is to give. -/
structure Assertion where
  text : List Char
  expected : Option Nat
deriving DecidableEq

def Assertion.Holds (s : Assertion) (d : Driver) (m : Machine) : Prop :=
  d.matchKeyword m s.text = .ok s.expected

structure Source where
  driver : Option Driver
  machine : Machine
  assertions : Option (List Assertion)
deriving DecidableEq

end Recognizer.Code
