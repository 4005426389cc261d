import Mathlib.Order.WellFounded
import Recognizer.Proofs.History
/-!
What a run from the start recognizes: branches are the runs that meet the final state at most at
their end, and the first time that a text meets it is the end of an accepted word.
-/

namespace Recognizer

namespace Automaton

variable {a : Automaton} {p q r : State} {v w text : Word} {c : Char}

theorem step_of_edge (hg : Grown a.size a.edges) (he : ⟨p, c, q⟩ ∈ a.edges) : a.step p c = q := by
  rw [step, (next?_eq_some_iff hg).2 he]
  rfl

theorem edge_of_step (h : a.step p c = q) (hq : q ≠ State.fail) : ⟨p, c, q⟩ ∈ a.edges := by
  cases hn : a.next? p c with
  | none =>
    rw [step, hn] at h
    exact absurd h.symm hq
  | some o =>
    rw [step, hn] at h
    obtain rfl : o = q := h
    exact mem_edges_of_next? hn

theorem step_fail (hg : Grown a.size a.edges) (c : Char) : a.step State.fail c = State.fail := by
  by_contra h
  exact hg.source_ne_fail (edge_of_step rfl h) rfl

theorem step_mem_states (hg : Grown a.size a.edges) (q : State) (c : Char) :
    a.step q c ∈ a.states := by
  have h3 := hg.three_le
  rw [mem_states]
  by_cases hq : a.step q c = State.fail
  · rw [hq]
    exact h3
  · exact hg.destination_lt (edge_of_step rfl hq)

theorem run_fail (hg : Grown a.size a.edges) (w : Word) : a.run State.fail w = State.fail := by
  induction w with
  | nil => rfl
  | cons c w ih => rw [run_cons, step_fail hg, ih]

theorem run_concat (a : Automaton) (q : State) (w : Word) (c : Char) :
    a.run q (w ++ [c]) = a.step (a.run q w) c := by
  rw [run_append, run_cons, run_nil]

/-- Branches of a root are the runs from there that do not fail, and do not meet the final state on
the way. -/
theorem branch_from_iff_run (hg : Grown a.size a.edges) (hr : r = State.start ∨ r = State.final) :
    Branch a.edges r w q ↔ a.run r w = q ∧ q ≠ State.fail ∧
      ∀ v, v ≠ [] → ProperPrefix v w → a.run r v ≠ State.final := by
  induction w using List.reverseRecOn generalizing q with
  | nil =>
    rw [Branch.nil_iff, run_nil]
    constructor
    · intro h
      refine ⟨h.1.symm, by lia, ?_⟩
      intro v hne hv
      exact absurd (List.prefix_nil.1 hv.1) hne
    · intro h
      exact ⟨h.1.symm, hr⟩
  | append_singleton w c ih =>
    rw [Branch.concat_iff, run_concat]
    constructor
    · intro h
      obtain ⟨p, hp, hn, he⟩ := h
      obtain ⟨hrun, hfail, hmid⟩ := ih.1 hp
      refine ⟨by rw [hrun, step_of_edge hg he], hg.destination_ne_fail he, ?_⟩
      intro v hne hv
      rcases List.prefix_concat_iff.1 hv.1 with h | h
      · exact absurd h hv.2
      · by_cases hvw : v = w
        · rw [hvw, hrun]
          exact hn.resolve_left (hvw ▸ hne)
        · exact hmid v hne ⟨h, hvw⟩
    · intro h
      obtain ⟨hstep, hq, hmid⟩ := h
      have he := edge_of_step hstep hq
      have hlast : w = [] ∨ a.run r w ≠ State.final :=
        or_iff_not_imp_left.2 fun hne ↦ hmid w hne (properPrefix_iff.2 ⟨[c], by simp, rfl⟩)
      refine ⟨a.run r w, ih.2 ⟨rfl, hg.source_ne_fail he, ?_⟩, hlast, he⟩
      intro v hne hv
      exact hmid v hne (hv.trans_prefix (List.prefix_append w [c]))

theorem branch_iff_run (hg : Grown a.size a.edges) : Branch a.edges State.start w q ↔
    a.run State.start w = q ∧ q ≠ State.fail ∧
      ∀ v, ProperPrefix v w → a.run State.start v ≠ State.final := by
  rw [branch_from_iff_run hg (.inl rfl)]
  refine and_congr_right' (and_congr_right' (forall_congr' fun v ↦ ?_))
  cases v <;> simp

/-- The shortest beginning of the text that brings a run from the start to the final state. -/
def FirstMatch (a : Automaton) (text w : Word) : Prop :=
  w <+: text ∧ a.run State.start w = State.final ∧
    ∀ v, v <+: text → a.run State.start v = State.final → w.length ≤ v.length

theorem firstMatch_iff (hg : Grown a.size a.edges) :
    a.FirstMatch text w ↔ w <+: text ∧ Branch a.edges State.start w State.final := by
  rw [FirstMatch, branch_iff_run hg]
  constructor
  · intro h
    obtain ⟨hw, hrun, hmin⟩ := h
    refine ⟨hw, hrun, by decide, ?_⟩
    intro v hv hf
    exact hv.2 (hv.1.eq_of_length_le (hmin v (hv.1.trans hw) hf))
  · intro h
    obtain ⟨hw, hrun, -, hmid⟩ := h
    refine ⟨hw, hrun, ?_⟩
    intro v hv hf
    by_contra hlt
    have hvw : v <+: w := List.prefix_of_prefix_length_le hv hw (by omega)
    apply hmid v ⟨hvw, ?_⟩ hf
    intro he
    rw [he] at hlt
    exact hlt (Nat.le_refl _)

theorem exists_firstMatch (hv : v <+: text) (h : a.run State.start v = State.final) :
    ∃ w, a.FirstMatch text w := by
  obtain ⟨w, hw, hmin⟩ := WellFounded.has_min (measure List.length).wf
    {v : Word | v <+: text ∧ a.run State.start v = State.final} ⟨v, hv, h⟩
  exact ⟨w, hw.1, hw.2, fun u hu hf ↦ Nat.not_lt.1 (hmin u ⟨hu, hf⟩)⟩

theorem forall_run_ne_final_iff :
    (∀ v, v <+: text → a.run State.start v ≠ State.final) ↔ ∀ w, ¬ a.FirstMatch text w := by
  constructor
  · intro h w hw
    exact h w hw.1 hw.2.1
  · intro h v hv hf
    obtain ⟨w, hw⟩ := exists_firstMatch hv hf
    exact h w hw

theorem Spells.firstMatch_iff {kept : List Word} (hs : Spells a kept) :
    a.FirstMatch text w ↔ w ∈ kept ∧ w <+: text := by
  rw [Automaton.firstMatch_iff hs.grown, hs.branch_final_iff, and_comm]

end Automaton

namespace Builder

open Automaton

/-- After any history, the first match of a text is the accepted word that begins it; there is at
most one, and a text that none begins never meets the final state. -/
theorem firstMatch_after (events : List Event) (text : Word) :
    let a := (after events).automaton
    let kept := accepted (offered events)
    (∀ w, a.FirstMatch text w ↔ w ∈ kept ∧ w <+: text) ∧
    (∀ v ∈ kept, ∀ w ∈ kept, v <+: text → w <+: text → v = w) ∧
    ((∃ v, v <+: text ∧ a.run State.start v = State.final) ↔ ∃ w ∈ kept, w <+: text) := by
  intro a kept
  have hs : Spells a kept := (holds_after events).tree
  refine ⟨fun w ↦ hs.firstMatch_iff, ?_, ?_⟩
  · intro v hv w hw h h'
    exact hs.prefixFree.eq_of_text hv hw h h'
  · constructor
    · intro h
      obtain ⟨v, hv, hf⟩ := h
      obtain ⟨w, hw⟩ := exists_firstMatch hv hf
      exact ⟨w, hs.firstMatch_iff.1 hw⟩
    · intro h
      obtain ⟨w, hw, hp⟩ := h
      obtain ⟨-, hrun, -⟩ := hs.firstMatch_iff.2 ⟨hw, hp⟩
      exact ⟨w, hp, hrun⟩

end Builder

end Recognizer
