import Recognizer.Proofs.Simulation
/-!
The generated tests hold exactly when no word is in conflict, which is when a module includes them.
-/

namespace Recognizer

namespace Code

variable {a : Automaton} {kept : List Word} {w : Word} {s : Assertion}

theorem mem_assertionsOf : s ∈ assertionsOf a ↔
    (∃ w ∈ a.words, s = ⟨w, some w.length⟩ ∨ s = ⟨w ++ suffix, some w.length⟩) ∨
      s = ⟨[], none⟩ ∨ ∃ w, nonKeyword? a = some w ∧ s = ⟨w, none⟩ := by
  simp only [assertionsOf, List.mem_append, List.mem_map, List.mem_eraseDups, List.mem_cons,
    Option.mem_toList]
  constructor
  · intro h
    rcases h with (⟨w, hw, rfl⟩ | ⟨w, hw, rfl⟩) | ⟨w, rfl | hw, rfl⟩
    · exact .inl ⟨w, hw, .inl rfl⟩
    · exact .inl ⟨w, hw, .inr rfl⟩
    · exact .inr (.inl rfl)
    · exact .inr (.inr ⟨w, hw, rfl⟩)
  · intro h
    rcases h with ⟨w, hw, rfl | rfl⟩ | rfl | ⟨w, hw, rfl⟩
    · exact .inl (.inl ⟨w, hw, rfl⟩)
    · exact .inl (.inr ⟨w, hw, rfl⟩)
    · exact .inr ⟨[], .inl rfl, rfl⟩
    · exact .inr ⟨w, .inr hw, rfl⟩

/-- A text that is printed as one of no word takes the first step into failure. -/
theorem step_of_nonKeyword? (h : nonKeyword? a = some w) :
    ∃ c v, w = c :: v ∧ a.step State.start c = State.fail := by
  unfold nonKeyword? at h
  split at h
  · rename_i c _ v _ hleads _
    have hc : c ∈ leads.filter fun c ↦
        a.blueprint.transition State.start (.ofList [c]) = State.fail := by
      rw [hleads]
      exact List.mem_cons_self
    rw [List.mem_filter, decide_eq_true_eq, Automaton.transition_blueprint] at hc
    exact ⟨c, v, (Option.some.inj h).symm, hc.2⟩
  · simp at h

theorem matchKeyword_nonKeyword (hg : Grown a.size a.edges) (h : nonKeyword? a = some w) :
    (driverOf a).matchKeyword (machineOf a) w = .ok none := by
  obtain ⟨c, v, rfl, hstep⟩ := step_of_nonKeyword? h
  apply matchKeyword_of_no_match hg
  intro u hu
  cases u with
  | nil =>
    rw [Automaton.run_nil]
    decide
  | cons d u =>
    obtain ⟨rfl, -⟩ := List.cons_prefix_cons.1 hu
    rw [Automaton.run_cons, hstep, Automaton.run_fail hg]
    decide

theorem matchKeyword_of_kept (hs : a.Spells kept) (hw : w ∈ kept) (x : Word) :
    (driverOf a).matchKeyword (machineOf a) (w ++ x) = .ok (some w.length) :=
  matchKeyword_of_firstMatch hs.grown (hs.firstMatch_iff.2 ⟨hw, List.prefix_append w x⟩)

/-- A word that matches at its own length has been accepted. -/
theorem mem_kept_of_matchKeyword (hs : a.Spells kept)
    (h : (driverOf a).matchKeyword (machineOf a) w = .ok (some w.length)) : w ∈ kept := by
  obtain ⟨v, hv, hlen⟩ := (matchKeyword_eq_some_iff hs.grown).1 h
  obtain ⟨hk, hp⟩ := hs.firstMatch_iff.1 hv
  rwa [hp.eq_of_length hlen] at hk

end Code

namespace Builder

open Code

variable {b : Builder} {words : List Word}

theorem Holds.assertions_hold_iff (h : Holds b words) :
    (∀ s ∈ assertionsOf b.automaton, s.Holds (driverOf b.automaton) (machineOf b.automaton)) ↔
      b.automaton.conflicts = [] := by
  constructor
  · intro hall
    rw [List.eq_nil_iff_forall_not_mem]
    intro w hw
    have hword : w ∈ b.automaton.words := (h.mem_words w).2 (.inr hw)
    have hholds := hall ⟨w, some w.length⟩ (mem_assertionsOf.2 (.inl ⟨w, hword, .inl rfl⟩))
    have hkept := mem_kept_of_matchKeyword h.tree hholds
    exact h.tree.prefixFree.not_hasRival hkept (h.rival w hw)
  · intro hc s hs
    rcases mem_assertionsOf.1 hs with ⟨w, hw, hs⟩ | rfl | ⟨w, hw, rfl⟩
    · have hkept : w ∈ accepted words := by
        simpa [hc] using (h.mem_words w).1 hw
      rcases hs with rfl | rfl
      · have hmatch := matchKeyword_of_kept h.tree hkept []
        rwa [List.append_nil] at hmatch
      · exact matchKeyword_of_kept h.tree hkept suffix
    · rfl
    · exact matchKeyword_nonKeyword h.tree.grown hw

/-- After any history, the tests that are written hold of the code just if no word is in conflict,
and just then a complete module includes them; otherwise there is one warning. -/
theorem tests_after (events : List Event) (width : Int) :
    let a := (after events).automaton
    ∃ (m : Machine) (d : Driver) (assertions : List Assertion),
      read? (render a (.standalone false) width) = some ⟨some d, m, none⟩ ∧
      Reader.tests.read? (Layout.print width 0 (tests a)).text = some assertions ∧
      ((∀ s ∈ assertions, s.Holds d m) ↔ a.conflicts = []) ∧
      (a.conflicts = [] →
        read? (render a (.standalone true) width) = some ⟨some d, m, some assertions⟩ ∧
        warnings a (.standalone true) = [] ∧
        (∀ w ∈ a.words, d.matchKeyword m w = .ok (some w.length) ∧
          d.matchKeyword m (w ++ ['_', 'x', '1']) = .ok (some w.length)) ∧
        ∀ s ∈ assertions, s.expected = none → d.matchKeyword m s.text = .ok none) ∧
      (a.conflicts ≠ [] →
        read? (render a (.standalone true) width) = some ⟨some d, m, none⟩ ∧
        warnings a (.standalone true) = [.testsLeftOut a.conflicts]) := by
  intro a
  have h : Holds (after events) (offered events) := holds_after events
  refine ⟨machineOf a, driverOf a, assertionsOf a, read?_render a (.standalone false) width,
    read?_tests a width, h.assertions_hold_iff, ?_, ?_⟩
  · intro hc
    have hall := h.assertions_hold_iff.2 hc
    refine ⟨?_, if_pos hc, ?_, ?_⟩
    · have hread := read?_render a (.standalone true) width
      rwa [sourceOf, if_pos ⟨rfl, hc⟩] at hread
    · intro w hw
      exact ⟨hall _ (mem_assertionsOf.2 (.inl ⟨w, hw, .inl rfl⟩)),
        hall _ (mem_assertionsOf.2 (.inl ⟨w, hw, .inr rfl⟩))⟩
    · intro s hs hnone
      have hholds := hall s hs
      rwa [Assertion.Holds, hnone] at hholds
  · intro hc
    refine ⟨?_, if_neg hc⟩
    have hread := read?_render a (.standalone true) width
    rwa [sourceOf, if_neg fun h ↦ hc h.2] at hread

end Builder

end Recognizer
