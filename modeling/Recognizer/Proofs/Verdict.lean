import Recognizer.Proofs.History
/-!
The verdict on a word is a matter of the accepted words alone: it conflicts if it extends one of
them, at the length of that one, or is a shorter beginning of one, at its own length.
-/

namespace Recognizer

namespace Builder

open Automaton

variable {b : Builder} {words : List Word}

theorem Holds.mem_conflicts_iff (h : Holds b words) (w : Word) :
    w ∈ b.automaton.conflicts ↔ w ∈ b.automaton.words ∧ w ∉ accepted words := by
  rw [h.mem_words]
  constructor
  · intro hw
    exact ⟨.inr hw, fun ha ↦ (prefixFree_accepted words).not_hasRival ha (h.rival w hw)⟩
  · intro hw
    exact hw.1.resolve_left hw.2

theorem Holds.conflicts_eq_nil_iff (h : Holds b words) : b.automaton.conflicts = [] ↔
    ∀ v ∈ b.automaton.words, ∀ w ∈ b.automaton.words, ¬ ProperPrefix v w := by
  rw [List.eq_nil_iff_forall_not_mem]
  constructor
  · intro hn v hv w hw hp
    have hv' : v ∈ accepted words := ((h.mem_words v).1 hv).resolve_right (hn v)
    have hw' : w ∈ accepted words := ((h.mem_words w).1 hw).resolve_right (hn w)
    exact hp.2 (prefixFree_accepted words v hv' w hw' hp.1)
  · intro hn w hw
    have hw' := (h.mem_words w).2 (.inr hw)
    obtain ⟨v, hv, hp⟩ := h.rival w hw
    have hv' := (h.mem_words v).2 (.inl hv)
    rcases hp with hp | hp
    · exact hn v hv' w hw' hp
    · exact hn w hw' v hv' hp

/-- An offer of a word is refused for a conflict, or taken with one warning of it, or taken in
silence. -/
theorem offer_cases {v : Value} {w : Word} (hv : v.word = .ok w) :
    (∃ depth, b.automaton.conflictDepth? w = some depth ∧
      (b.strict = true → b.offer v = .error (.conflict w depth)) ∧
      (b.strict = false → ∃ notes, b.offer v = .ok (b.take w, notes) ∧
        notes.warnings = [.conflict w depth] ∧
        (b.take w).automaton.conflicts = b.automaton.conflicts ++ [w])) ∨
    (∃ notes, b.automaton.conflictDepth? w = none ∧ b.offer v = .ok (b.take w, notes) ∧
      notes.warnings = [] ∧ (b.take w).automaton.conflicts = b.automaton.conflicts) := by
  cases h : b.automaton.conflictDepth? w with
  | none =>
    refine .inr ⟨_, rfl, offer_of_none hv h, ?_, ?_⟩
    · simp [notes, h]
    · simp [take, Automaton.insert, h]
  | some depth =>
    refine .inl ⟨depth, rfl, offer_of_strict hv h, fun hs ↦ ⟨_, offer_of_lenient hv hs, ?_, ?_⟩⟩
    · simp [notes, h]
    · simp [take, Automaton.insert, h]

/-- After any history, a word offered is in conflict exactly when it has a rival among the accepted
words, at a depth that these determine. The words taken are the accepted ones and, apart from them,
the conflicts; and there are none of these exactly when no word taken begins another. -/
theorem verdict_after (events : List Event) :
    let b := after events
    let kept := accepted (offered events)
    (∀ v w, Value.word v = .ok w →
      (∀ depth, Clashes kept w depth →
        (b.strict = true → b.offer v = .error (.conflict w depth)) ∧
        (b.strict = false → ∃ taken notes, b.offer v = .ok (taken, notes) ∧
          notes.warnings = [.conflict w depth] ∧
          taken.automaton.conflicts = b.automaton.conflicts ++ [w])) ∧
      (¬ HasRival kept w → ∃ taken notes, b.offer v = .ok (taken, notes) ∧
        notes.warnings = [] ∧ taken.automaton.conflicts = b.automaton.conflicts) ∧
      (HasRival kept w → ∃! depth, Clashes kept w depth) ∧
      (∀ x ∈ kept, ∀ y ∈ kept, ProperPrefix x w → ProperPrefix y w → x = y)) ∧
    (∀ w, w ∈ b.automaton.words ↔ w ∈ kept ∨ w ∈ b.automaton.conflicts) ∧
    (∀ w ∈ kept, w ∉ b.automaton.conflicts) ∧
    (b.automaton.conflicts = [] ↔
      ∀ v ∈ b.automaton.words, ∀ w ∈ b.automaton.words, ¬ ProperPrefix v w) ∧
    (Unrefused events → b.automaton.words = offered events) := by
  intro b kept
  have h : Holds b (offered events) := holds_after events
  refine ⟨?_, h.mem_words, fun w hw hc ↦ ((h.mem_conflicts_iff w).1 hc).2 hw,
    h.conflicts_eq_nil_iff, words_after⟩
  intro v w hv
  have hw := Value.word_ne_nil hv
  have hverdict {depth : Nat} : b.automaton.conflictDepth? w = some depth ↔ Clashes kept w depth :=
    h.tree.conflictDepth?_eq_some_iff hw
  refine ⟨?_, ?_, (prefixFree_accepted _).existsUnique_clashes, ?_⟩
  · intro depth hd
    have hc := hverdict.2 hd
    rcases offer_cases (b := b) hv with ⟨d, hd', hs, hl⟩ | ⟨notes, hn, -⟩
    · obtain rfl : d = depth := Option.some.inj (hd'.symm.trans hc)
      exact ⟨hs, fun hb ↦ ⟨_, hl hb⟩⟩
    · exact absurd (hn.symm.trans hc) nofun
  · intro hr
    rcases offer_cases (b := b) hv with ⟨d, hd, -⟩ | ⟨notes, -, ht⟩
    · exact absurd (hverdict.1 hd).hasRival hr
    · exact ⟨_, notes, ht⟩
  · intro x hx y hy hxw hyw
    exact (prefixFree_accepted _).eq_of_text hx hy hxw.1 hyw.1

end Builder

end Recognizer
