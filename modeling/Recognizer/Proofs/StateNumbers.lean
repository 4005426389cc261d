import Mathlib.Algebra.Group.Nat.Defs
import Recognizer.Proofs.Reading.Standalone
import Recognizer.Proofs.Representation
/-!
The state numbers in the code and the type that is to hold them. Main statement: the code has just
the numbers of the states, so the type holds them all up to `2 ^ 32` states, where no narrower type
does.
-/

namespace Recognizer

namespace StateType

variable {size n : Nat} {type : StateType}

def Holds (type : StateType) (n : Nat) : Prop := n < 2 ^ type.bits

theorem size_le_iff : size ≤ 2 ^ (ofStates (List.range size)).bits ↔ size ≤ 2 ^ 32 := by
  rw [ofStates_range]
  split
  · simp only [bits]
    omega
  · split
    · simp only [bits]
      omega
    · rfl

theorem bits_ofStates_le (h : size ≤ 2 ^ type.bits) :
    (ofStates (List.range size)).bits ≤ type.bits := by
  rw [ofStates_range]
  cases type with
  | u8 =>
    have h8 : size ≤ 256 := h
    rw [if_pos h8]
  | u16 =>
    have h16 : size ≤ 65536 := h
    rw [if_pos h16]
    split <;> decide
  | u32 =>
    split
    · decide
    · split <;> decide

example : upTo 255 = u8 ∧ upTo 256 = u16 ∧ upTo 65535 = u16 ∧ upTo 65536 = u32 := by
  decide

theorem forall_holds_iff : (∀ n < size, type.Holds n) ↔ size ≤ 2 ^ type.bits := by
  refine ⟨fun h ↦ ?_, fun h n hn ↦ Nat.lt_of_lt_of_le hn h⟩
  by_contra hlt
  exact absurd (h (2 ^ type.bits) (by omega)) (Nat.lt_irrefl _)

end StateType

namespace Code

/-- The patterns of the dispatch, and the values of the arms. -/
def Machine.numbers (m : Machine) : List Nat :=
  m.dispatch.map (·.1) ++ m.functions.flatMap fun f ↦ f.arms.map (·.2) ++ [f.default]

/-- The state to start in, and those compared with. -/
def Driver.numbers (d : Driver) : List Nat := [d.start, d.accept, d.reject]

def Source.numbers (s : Source) : List Nat :=
  s.machine.numbers ++ s.driver.toList.flatMap Driver.numbers

/-- The types of the functions, and of the field that holds the state. -/
def Source.types (s : Source) : List (List Char) :=
  s.machine.functions.map (·.type) ++ s.driver.toList.map (·.type)

variable {a : Automaton} {n : Nat}

theorem mem_numbers_machineOf (hg : Grown a.size a.edges) :
    n ∈ (machineOf a).numbers ↔ n ∈ a.states := by
  have hfail : State.fail ∈ a.states := Automaton.mem_states.2 (by have := hg.three_le; lia)
  have hdispatch : (machineOf a).dispatch.map (·.1) = a.states := by
    simp [machineOf, Function.comp_def]
  rw [Machine.numbers, hdispatch, List.mem_append, or_iff_left_iff_imp]
  intro h
  obtain ⟨f, hf, hn⟩ := List.mem_flatMap.1 h
  obtain ⟨q, -, rfl⟩ := List.mem_map.1 hf
  rcases List.mem_append.1 hn with hn | hn
  · obtain ⟨⟨c, p⟩, he, rfl⟩ := List.mem_map.1 hn
    exact Automaton.mem_states.2 (hg.destination_lt (Automaton.mem_edgesFrom.1 he))
  · rwa [List.mem_singleton.1 hn]

theorem mem_numbers_driverOf (hg : Grown a.size a.edges) (h : n ∈ (driverOf a).numbers) :
    n ∈ a.states := by
  have h3 := hg.three_le
  rw [Automaton.mem_states]
  simp only [Driver.numbers, driverOf, List.mem_cons, List.not_mem_nil, or_false] at h
  lia

theorem mem_numbers_sourceOf (hg : Grown a.size a.edges) (form : Form) :
    n ∈ (sourceOf a form).numbers ↔ n ∈ a.states := by
  cases form with
  | machine => simpa [Source.numbers, sourceOf] using mem_numbers_machineOf hg
  | standalone tests =>
    have hdriver := mem_numbers_driverOf (n := n) hg
    simpa [Source.numbers, sourceOf, mem_numbers_machineOf hg] using hdriver

theorem types_sourceOf (a : Automaton) (form : Form) :
    ∀ type ∈ (sourceOf a form).types, type = a.stateType.name.toList := by
  have hfunctions : ∀ type ∈ (machineOf a).functions.map (·.type),
      type = a.stateType.name.toList := by
    simp [machineOf, functionOf]
  cases form with
  | machine => simpa [Source.types, sourceOf] using hfunctions
  | standalone tests =>
    rw [Source.types, List.forall_mem_append]
    exact ⟨hfunctions, by simp [sourceOf, driverOf]⟩

end Code

namespace Builder

open Code

/-- After any history, at any width and depth, the state numbers that are read in the code are those
of the states. The type in the code is one for the functions of all states and the field of the
driver; it holds the numbers just if there are at most `2 ^ 32` states, and no narrower type does.
-/
theorem numbers_after (events : List Event) (form : Form) (width : Int) (depth : Nat) :
    let a := (after events).automaton
    ∃ s, read? (Layout.print width depth (steps a form)).text = some s ∧
      (∀ n, n ∈ s.numbers ↔ n ∈ a.states) ∧
      ((∀ n ∈ s.numbers, a.stateType.Holds n) ↔ a.states.length ≤ 2 ^ 32) ∧
      (∀ type : StateType, type.bits < a.stateType.bits → ¬ ∀ n ∈ s.numbers, type.Holds n) ∧
      s.machine.functions.map (·.name) = a.interior.map functionName ∧
      (s.driver.isSome ↔ form ≠ .machine) ∧
      ∀ type ∈ s.types, type = a.stateType.name.toList := by
  intro a
  have hg : Grown a.size a.edges := (holds_after events).tree.grown
  have hnumbers (n : Nat) : n ∈ (sourceOf a form).numbers ↔ n ∈ a.states :=
    mem_numbers_sourceOf hg form
  have hlength : a.states.length = a.size := List.length_range
  have hholds (type : StateType) :
      (∀ n ∈ (sourceOf a form).numbers, type.Holds n) ↔ a.size ≤ 2 ^ type.bits := by
    simp only [hnumbers, Automaton.mem_states]
    exact StateType.forall_holds_iff
  refine ⟨sourceOf a form,
    Reader.read?_print (arePlain_steps a form) (run_steps a form) width depth,
    hnumbers, ?_, ?_, ?_, ?_, types_sourceOf a form⟩
  · rw [hholds, hlength]
    exact StateType.size_le_iff
  · intro type hlt
    rw [hholds]
    intro hle
    exact Nat.not_le.2 hlt (StateType.bits_ofStates_le hle)
  · cases form <;> simp [sourceOf, machineOf, functionOf]
  · cases form <;> simp [sourceOf]

end Builder

end Recognizer
