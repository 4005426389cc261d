import Mathlib.Data.List.Nodup
import Recognizer.Proofs.Acceptance
import Recognizer.Proofs.Reading.Standalone
import Recognizer.Proofs.Refinement
/-!
The code that is written simulates the automaton: each character takes the machine that is read to
the next state, and its driver finds the first match. Main statement: the arms, which are written
from the edges of a store, move the machine just where the index of the store leads.
-/

namespace Recognizer

namespace Automaton

variable {a : Automaton} {q : State} {c : Char}

theorem start_mem_interior (hg : Grown a.size a.edges) : State.start ∈ a.interior := by
  have h3 := hg.three_le
  refine mem_interior.2 ⟨?_, by decide, by decide⟩
  exact mem_states.2 (Nat.lt_of_lt_of_le (by decide) h3)

theorem step_mem_interior (hg : Grown a.size a.edges) (hfinal : a.step q c ≠ State.final)
    (hfail : a.step q c ≠ State.fail) : a.step q c ∈ a.interior :=
  mem_interior.2 ⟨step_mem_states hg q c, hfinal, hfail⟩

end Automaton

namespace Code

variable {a : Automaton} {q : State} {c : Char} {text w : Word} {k : Nat}

theorem find?_dispatch (hq : q ∈ a.states) :
    (machineOf a).dispatch.find? (·.1 = q) = some (q, actionOf q) := by
  have hfind : a.states.find? (fun p ↦ decide (p = q)) = some q := by
    cases h : a.states.find? (fun p ↦ decide (p = q)) with
    | none =>
      have hne := List.find?_eq_none.1 h q hq
      simp at hne
    | some p =>
      have hp := List.find?_some h
      rw [of_decide_eq_true hp]
  rw [machineOf, Automaton.states_blueprint, List.find?_map]
  have hcomp : ((fun x : Nat × Action ↦ decide (x.1 = q)) ∘ fun p ↦ (p, actionOf p)) =
      fun p ↦ decide (p = q) := rfl
  rw [hcomp, hfind]
  rfl

theorem nodup_interior (a : Automaton) : a.interior.Nodup := List.Nodup.filter _ List.nodup_range

/-- No function of the code is missing, and none is there twice. -/
theorem filter_functions (hq : q ∈ a.interior) :
    (machineOf a).functions.filter (·.name = functionName q) = [functionOf a q] := by
  have hname : ((fun f : Function ↦ decide (f.name = functionName q)) ∘ functionOf a) =
      fun p ↦ decide (p = q) := by
    funext p
    have hp : (functionOf a p).name = functionName q ↔ p = q :=
      ⟨functionName_injective, fun h ↦ by rw [h, functionOf]⟩
    simp [hp]
  rw [machineOf, Automaton.interior_blueprint, List.filter_map, hname, List.filter_eq,
    List.count_eq_one_of_mem (nodup_interior a) hq]
  rfl

theorem apply_functionOf (a : Automaton) (q : State) (c : Char) :
    (functionOf a q).apply c = a.step q c := by
  simp only [Function.apply, functionOf, Automaton.edgesAt_blueprint, Automaton.edgesAt_natCast,
    Automaton.edgesFrom, Automaton.step, Automaton.next?, List.find?_map, List.find?_filter,
    Option.map_map, Function.comp_def, decide_eq_true_eq]

theorem consume_machineOf (hq : q ∈ a.states) (c : Char) : (machineOf a).consume q c =
    if q = State.final ∨ q = State.fail then .ok (false, q) else .ok (true, a.step q c) := by
  rw [Machine.consume, find?_dispatch hq, actionOf]
  by_cases h : q = State.final ∨ q = State.fail
  · rw [if_pos h, if_pos h]
  · have hi : q ∈ a.interior := Automaton.mem_interior.2 ⟨hq, not_or.1 h⟩
    rw [if_neg h, if_neg h]
    simp only [Machine.call, filter_functions hi, apply_functionOf]
    rfl

theorem check_cons (hq : q ∈ a.interior) (k : Nat) (c : Char) (text : Word) :
    (driverOf a).check (machineOf a) q k (c :: text) =
      if a.step q c = State.final then .ok (some (k + 1))
      else if a.step q c = State.fail then .ok none
      else (driverOf a).check (machineOf a) (a.step q c) (k + 1) text := by
  obtain ⟨hstates, hends⟩ := Automaton.mem_interior.1 hq
  rw [Driver.check, consume_machineOf hstates, if_neg (not_or.2 hends)]
  rfl

theorem check_of_match (hg : Grown a.size a.edges) (hq : q ∈ a.interior) (hw : w <+: text)
    (hrun : a.run q w = State.final) (hmid : ∀ v, ProperPrefix v w → a.run q v ≠ State.final) :
    (driverOf a).check (machineOf a) q k text = .ok (some (k + w.length)) := by
  -- along the match the machine stays inside, since nothing leads from failure to the final state
  induction w generalizing q k text with
  | nil => exact absurd hrun (Automaton.mem_interior.1 hq).2.1
  | cons c w ih =>
    obtain ⟨rest, rfl⟩ := hw
    rw [List.cons_append, check_cons hq]
    by_cases h : a.step q c = State.final
    · have hnil : w = [] := by
        by_contra hne
        have hfirst : ProperPrefix [c] (c :: w) := properPrefix_iff.2 ⟨w, hne, rfl⟩
        exact hmid [c] hfirst h
      rw [if_pos h, hnil]
      rfl
    · have hstep : a.step q c ≠ State.fail := by
        intro hf
        rw [Automaton.run_cons, hf, Automaton.run_fail hg] at hrun
        exact absurd hrun (by decide)
      have hrest (v : Word) (hv : ProperPrefix v w) : a.run (a.step q c) v ≠ State.final := by
        refine hmid (c :: v) ⟨?_, ?_⟩
        · exact (List.prefix_cons_inj c).2 hv.1
        · intro he
          exact hv.2 (List.cons.inj he).2
      rw [if_neg h, if_neg hstep, ih (Automaton.step_mem_interior hg h hstep)
        (List.prefix_append w rest) hrun hrest, List.length_cons]
      congr 2
      omega

theorem check_of_no_match (hg : Grown a.size a.edges) (hq : q ∈ a.interior)
    (h : ∀ v, v <+: text → a.run q v ≠ State.final) :
    (driverOf a).check (machineOf a) q k text = .ok none := by
  induction text generalizing q k with
  | nil => rfl
  | cons c text ih =>
    have hstep : a.step q c ≠ State.final := h [c] (List.prefix_append [c] text)
    rw [check_cons hq, if_neg hstep]
    by_cases hf : a.step q c = State.fail
    · rw [if_pos hf]
    · rw [if_neg hf]
      apply ih (Automaton.step_mem_interior hg hstep hf)
      intro v hv
      exact h (c :: v) ((List.prefix_cons_inj c).2 hv)

theorem matchKeyword_of_firstMatch (hg : Grown a.size a.edges) (h : a.FirstMatch text w) :
    (driverOf a).matchKeyword (machineOf a) text = .ok (some w.length) := by
  obtain ⟨hw, hrun, hmin⟩ := h
  have hmid (v : Word) (hv : ProperPrefix v w) : a.run State.start v ≠ State.final := by
    intro hf
    exact hv.2 (hv.1.eq_of_length_le (hmin v (hv.1.trans hw) hf))
  have hcheck := check_of_match (k := 0) hg (Automaton.start_mem_interior hg) hw hrun hmid
  rwa [Nat.zero_add] at hcheck

theorem matchKeyword_of_no_match (hg : Grown a.size a.edges)
    (h : ∀ v, v <+: text → a.run State.start v ≠ State.final) :
    (driverOf a).matchKeyword (machineOf a) text = .ok none :=
  check_of_no_match hg (Automaton.start_mem_interior hg) h

theorem matchKeyword_eq_some_iff (hg : Grown a.size a.edges) {n : Nat} :
    (driverOf a).matchKeyword (machineOf a) text = .ok (some n) ↔
      ∃ w, a.FirstMatch text w ∧ w.length = n := by
  constructor
  · intro h
    by_cases hm : ∃ v, v <+: text ∧ a.run State.start v = State.final
    · obtain ⟨v, hv, hf⟩ := hm
      obtain ⟨w, hw⟩ := Automaton.exists_firstMatch hv hf
      rw [matchKeyword_of_firstMatch hg hw, Except.ok.injEq, Option.some.injEq] at h
      exact ⟨w, hw, h⟩
    · rw [matchKeyword_of_no_match hg fun v hv hf ↦ hm ⟨v, hv, hf⟩] at h
      simp at h
  · intro h
    obtain ⟨w, hw, rfl⟩ := h
    exact matchKeyword_of_firstMatch hg hw

theorem matchKeyword_eq_none_iff (hg : Grown a.size a.edges) :
    (driverOf a).matchKeyword (machineOf a) text = .ok none ↔
      ∀ v, v <+: text → a.run State.start v ≠ State.final := by
  refine ⟨?_, matchKeyword_of_no_match hg⟩
  intro h v hv hf
  obtain ⟨w, hw⟩ := Automaton.exists_firstMatch hv hf
  rw [matchKeyword_of_firstMatch hg hw] at h
  simp at h

end Code

namespace Store

open Code

variable {s : Store} {text w : Word}

/-- The shortest beginning of the text along which the index leads to the final state. -/
def FirstMatch (s : Store) (text w : Word) : Prop :=
  w <+: text ∧ s.run State.start w = State.final ∧
    ∀ v, v <+: text → s.run State.start v = State.final → w.length ≤ v.length

theorem InStep.firstMatch_iff (hs : s.InStep) :
    s.FirstMatch text w ↔ s.automaton.FirstMatch text w := by
  simp only [FirstMatch, Automaton.FirstMatch, hs.run_eq]

theorem InStep.transition_singleton (hs : s.InStep) (q : State) (c : Char) :
    s.transition q (.ofList [c]) = s.automaton.step q c := by
  rw [hs.transition_eq, Automaton.transition_singleton]

/-- After any history, the code reads as a machine that moves as the transition function says, from
each state and on each character, without fault; and a complete module also as a driver, which
counts the characters of the first match and finds none only where there is none. -/
theorem simulation_after (events : List Builder.Event) (width : Int) :
    let s := after events
    ∃ (m : Machine) (d : Driver),
      read? (render s .machine width) = some ⟨none, m, none⟩ ∧
      (∀ withTests, ∃ assertions,
        read? (render s (.standalone withTests) width) = some ⟨some d, m, assertions⟩) ∧
      (∀ q ∈ s.states, ∀ c, s.transition q (.ofList [c]) ∈ s.states ∧ m.consume q c =
        if q = State.final ∨ q = State.fail then .ok (false, q)
        else .ok (true, s.transition q (.ofList [c]))) ∧
      d.start = State.start ∧
      ∀ text, (∀ n, d.matchKeyword m text = .ok (some n) ↔
          ∃ w, s.FirstMatch text w ∧ w.length = n) ∧
        (d.matchKeyword m text = .ok none ↔
          ∀ v, v <+: text → s.run State.start v ≠ State.final) := by
  intro s
  have hs : s.InStep := inStep_after events
  let a := s.automaton
  have hg : Grown a.size a.edges := grown_after events
  have hrender (form : Form) : render s form width = render a form width :=
    congrArg (render · form width) hs.blueprint_eq
  refine ⟨machineOf a, driverOf a, ?_, ?_, ?_, rfl, ?_⟩
  · rw [hrender]
    exact read?_render a .machine width
  · intro withTests
    rw [hrender]
    exact ⟨_, read?_render a (.standalone withTests) width⟩
  · intro q hq c
    rw [hs.states_eq] at hq ⊢
    rw [hs.transition_singleton]
    exact ⟨Automaton.step_mem_states hg q c, consume_machineOf hq c⟩
  · intro text
    simp only [hs.firstMatch_iff, hs.run_eq]
    exact ⟨fun n ↦ matchKeyword_eq_some_iff hg, matchKeyword_eq_none_iff hg⟩

end Store

end Recognizer
