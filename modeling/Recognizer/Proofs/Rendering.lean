import Recognizer.Proofs.Reading.Standalone
import Recognizer.Proofs.Representation
/-!
What the code of an automaton shows of it: the number of its states and, for each that matching can
go on from, the edges that leave it, in order. Main statement: two automata are written as the same
code just if they agree in this.
-/

namespace Recognizer

namespace Code

variable {a b : Automaton} {width : Int}

structure Alike (a b : Automaton) : Prop where
  size : a.size = b.size
  edges : ∀ q ∈ a.interior, a.edgesFrom q = b.edgesFrom q

namespace Alike

theorem states (h : Alike a b) : a.states = b.states := by
  rw [Automaton.states, h.size, Automaton.states]

theorem interior (h : Alike a b) : a.interior = b.interior := by
  rw [Automaton.interior, h.states, Automaton.interior]

theorem stateType (h : Alike a b) : a.stateType = b.stateType := by
  rw [Automaton.stateType, h.states, Automaton.stateType]

theorem symm (h : Alike a b) : Alike b a where
  size := h.size.symm
  edges q hq := (h.edges q (h.interior ▸ hq)).symm

theorem consume (h : Alike a b) : consume a = consume b := by
  rw [Code.consume, Automaton.states_blueprint, h.states, ← Automaton.states_blueprint,
    Code.consume]

theorem stateFunctions (h : Alike a b) : stateFunctions a = stateFunctions b := by
  simp only [Code.stateFunctions, Automaton.interior_blueprint, Automaton.stateType_blueprint,
    ← h.interior, ← h.stateType]
  refine List.flatMap_congr fun q hq ↦ ?_
  have hedges : a.edgesAt q = b.edgesAt q := h.edges q hq
  rw [stateFunction, Automaton.edgesAt_blueprint, hedges, ← Automaton.edgesAt_blueprint,
    stateFunction]

theorem machine (h : Alike a b) : machine a = machine b := by
  rw [Code.machine, h.consume, h.stateFunctions, Code.machine]

theorem standalone (h : Alike a b) : standalone a = standalone b := by
  rw [Code.standalone, Automaton.stateType_blueprint, h.stateType, h.consume, h.stateFunctions,
    ← Automaton.stateType_blueprint, Code.standalone]

/-- Automata that read as the same machine are alike, since the machine has the arms of each
state. -/
theorem of_machineOf (h : machineOf a = machineOf b) : Alike a b := by
  obtain ⟨hdispatch, hfunctions⟩ := Machine.mk.inj h
  have hstates : a.states = b.states := by
    simpa [Function.comp_def] using congrArg (List.map Prod.fst) hdispatch
  have hsize : a.size = b.size := by
    simpa [Automaton.states] using congrArg List.length hstates
  have hinterior : a.interior = b.interior := by
    rw [Automaton.interior, hstates, Automaton.interior]
  refine ⟨hsize, fun q hq ↦ ?_⟩
  rw [Automaton.interior_blueprint, Automaton.interior_blueprint, ← hinterior] at hfunctions
  have hfunction : functionOf a q = functionOf b q := List.map_inj_left.1 hfunctions q hq
  exact congrArg Function.arms hfunction

theorem mem_edges_of_mem (h : Alike a b) (hg : Grown a.size a.edges) {e : Edge}
    (hs : e.source ≠ State.final) (he : e ∈ a.edges) : e ∈ b.edges := by
  have hq : e.source ∈ a.interior := Automaton.mem_interior.2
    ⟨Automaton.mem_states.2 (hg.source_lt he), hs, hg.source_ne_fail he⟩
  have hm : (e.symbol, e.destination) ∈ a.edgesFrom e.source := Automaton.mem_edgesFrom.2 he
  rw [h.edges e.source hq] at hm
  exact Automaton.mem_edgesFrom.1 hm

end Alike

/-- In every form the code is read back as the machine. -/
theorem alike_of_render_eq {form : Form} (h : render a form width = render b form width) :
    Alike a b := by
  have hread := read?_render a form width
  rw [h, read?_render b form width, Option.some.injEq] at hread
  apply Alike.of_machineOf
  cases form with
  | machine => exact (congrArg Source.machine hread).symm
  | standalone tests => exact (congrArg Source.machine hread).symm

/-- Without tests, the code is the same for automata that are alike, and only for them. -/
theorem render_eq_iff_alike {form : Form} (hform : form ≠ .standalone true) :
    render a form width = render b form width ↔ Alike a b := by
  refine ⟨alike_of_render_eq, fun h ↦ ?_⟩
  have hsteps : steps a form = steps b form := by
    match form with
    | .machine => exact h.machine
    | .standalone false => exact h.standalone
    | .standalone true => exact absurd rfl hform
  rw [render, hsteps, render]

/-- Edges that leave the final state leave no mark on the code, nor do the words. -/
theorem alike_of_filter (a : Automaton) (words conflicts : List Word) :
    Alike { a with edges := a.edges.filter (·.source ≠ State.final), words, conflicts } a := by
  refine ⟨rfl, fun q hq ↦ ?_⟩
  have hfinal : q ≠ State.final := (Automaton.mem_interior.1 hq).2.1
  rw [Automaton.edgesFrom, Automaton.edgesFrom, List.filter_filter]
  congr 1
  refine List.filter_congr fun e _ ↦ ?_
  by_cases he : e.source = q <;> simp_all

end Code

namespace Builder

open Code

/-- After any two histories, both forms of the code without tests are the same just if there are as
many states, and the same edges in the same order from each state but the final and the failing one.
An edge from any other state shows, then, and none that leaves the final state does, and no word. -/
theorem same_code_after (events more : List Event) (width : Int) (complete : Bool) :
    let a := (after events).automaton
    let b := (after more).automaton
    let form : Form := if complete then .standalone false else .machine
    (render a form width = render b form width ↔ a.states.length = b.states.length ∧
      ∀ q ∈ a.states, q ≠ State.final → q ≠ State.fail → a.edgesFrom q = b.edgesFrom q) ∧
    (render a form width = render b form width →
      ∀ e : Edge, e.source ≠ State.final → (e ∈ a.edges ↔ e ∈ b.edges)) ∧
    ∀ words conflicts,
      render ({ a with edges := a.edges.filter (·.source ≠ State.final), words, conflicts } :
        Automaton) form width = render a form width := by
  intro a b form
  have hform : form ≠ .standalone true := by
    cases complete <;> simp [form]
  have ha : Grown a.size a.edges := (holds_after events).tree.grown
  have hb : Grown b.size b.edges := (holds_after more).tree.grown
  refine ⟨?_, ?_, fun words conflicts ↦ (render_eq_iff_alike hform).2 (alike_of_filter a _ _)⟩
  · rw [render_eq_iff_alike hform]
    constructor
    · intro h
      refine ⟨congrArg List.length h.states, fun q hq hfinal hfail ↦ h.edges q ?_⟩
      exact Automaton.mem_interior.2 ⟨hq, hfinal, hfail⟩
    · rintro ⟨hlength, hedges⟩
      refine ⟨by simpa [Automaton.states] using hlength, fun q hq ↦ ?_⟩
      obtain ⟨hmem, hfinal, hfail⟩ := Automaton.mem_interior.1 hq
      exact hedges q hmem hfinal hfail
  · intro h e hs
    have halike := (render_eq_iff_alike hform).1 h
    exact ⟨halike.mem_edges_of_mem ha hs, halike.symm.mem_edges_of_mem hb hs⟩

end Builder

end Recognizer
