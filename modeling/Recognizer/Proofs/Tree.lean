import Recognizer.Proofs.Accepted
import Recognizer.Proofs.Branch
/-!
Words as the branches of a root. Main statements: no word of a tree begins another, and a fresh path
adds its word to the tree that it leaves and nothing to others.
-/

namespace Recognizer

/-- The branches of the root are the beginnings of words, and just the words end on the final
state. -/
structure Tree (edges : List Edge) (r : State) (words : List Word) : Prop where
  ne_nil : ∀ w ∈ words, w ≠ []
  complete : ∀ w ∈ words, Branch edges r w State.final
  sound : ∀ u q, Branch edges r u q → u ≠ [] → ∃ w ∈ words, u <+: w

namespace Tree

variable {n : Nat} {edges : List Edge} {r r' q : State} {words : List Word} {v w x : Word}

theorem empty (r : State) : Tree [] r [] where
  ne_nil := by simp
  complete := by simp
  sound u q h hu := by
    induction u using List.reverseRecOn with
    | nil => exact absurd rfl hu
    | append_singleton u c => simp [Branch.concat_iff] at h

theorem branch_final_iff (hg : Grown n edges) (ht : Tree edges r words) (hw : w ≠ []) :
    Branch edges r w State.final ↔ w ∈ words := by
  refine ⟨fun h ↦ ?_, ht.complete w⟩
  obtain ⟨v, hv, x, rfl⟩ := ht.sound w _ h hw
  obtain rfl := h.eq_nil_of_final hg hw (ht.complete _ hv)
  simpa using hv

theorem prefixFree (hg : Grown n edges) (ht : Tree edges r words) : PrefixFree words := by
  intro v hv w hw hp
  obtain ⟨x, rfl⟩ := hp
  obtain rfl := (ht.complete v hv).eq_nil_of_final hg (ht.ne_nil v hv) (ht.complete _ hw)
  simp

/-- A word of the tree goes on to the end of a branch, so it does not end where others go on. -/
theorem not_prefix_node (hg : Grown n edges) (ht : Tree edges r words) (hb : Branch edges r v q)
    (hn : v = [] ∨ q ≠ State.final) (hw : w ∈ words) : ¬ w <+: v := by
  intro hp
  obtain ⟨x, rfl⟩ := hp
  have hend := ht.complete w hw
  have hne := ht.ne_nil w hw
  obtain rfl := hend.eq_nil_of_final hg hne hb
  rw [List.append_nil] at hb hn
  exact hn.resolve_left hne (hb.functional hg hend)

/-- What leaves the tree between the root and the ends of branches is comparable to no word. -/
theorem not_comparable (hg : Grown n edges) (ht : Tree edges r words) (hb : Branch edges r v q)
    (hn : v = [] ∨ q ≠ State.final) (hx : x ≠ []) (hf : Free edges q x) (hw : w ∈ words) :
    ¬ w <+: v ++ x ∧ ¬ v ++ x <+: w := by
  cases x with
  | nil => exact absurd rfl hx
  | cons c x =>
    have hc : v ++ [c] <+: v ++ c :: x := ⟨x, by simp⟩
    have hgo : ¬ v ++ [c] <+: w := by
      intro hp
      obtain ⟨y, rfl⟩ := hp
      have hend := ht.complete _ hw
      rw [List.append_assoc, List.singleton_append] at hend
      obtain ⟨p, hp⟩ := hb.exists_edge hg hend
      exact hf _ hp rfl rfl
    refine ⟨?_, fun h ↦ hgo (hc.trans h)⟩
    intro h
    rcases List.prefix_or_prefix_of_prefix h hc with h | h
    · rcases List.prefix_concat_iff.1 h with h | h
      · exact hgo (h ▸ List.prefix_refl w)
      · exact ht.not_prefix_node hg hb hn hw h
    · exact hgo h

theorem path (hg : Grown n edges) (ht : Tree edges r words) (hb : Branch edges r v q)
    (hn : v = [] ∨ q ≠ State.final) (hx : x ≠ []) (hf : Free edges q x) :
    Tree (edges ++ Automaton.path n q x) r (words ++ [v ++ x]) where
  ne_nil w hw := by
    rcases List.mem_append.1 hw with hw | hw
    · exact ht.ne_nil w hw
    · simp [List.mem_singleton.1 hw, hx]
  complete w hw := by
    rcases List.mem_append.1 hw with hw | hw
    · exact (ht.complete w hw).mono (List.subset_append_left _ _)
    · rw [List.mem_singleton.1 hw]
      exact hb.path hg.three_le hn hx
  sound u p hu hne := by
    rcases Branch.of_path hg hf hb hn hu with hu | ⟨-, hu⟩
    · obtain ⟨w, hw, hp⟩ := ht.sound u p hu hne
      exact ⟨w, List.mem_append_left _ hw, hp⟩
    · exact ⟨v ++ x, by simp, hu⟩

theorem path_of_ne (hg : Grown n edges) (ht : Tree edges r' words) (hr : r' ≠ r)
    (hb : Branch edges r v q) (hn : v = [] ∨ q ≠ State.final) (hf : Free edges q x) :
    Tree (edges ++ Automaton.path n q x) r' words where
  ne_nil := ht.ne_nil
  complete w hw := (ht.complete w hw).mono (List.subset_append_left _ _)
  sound u p hu hne := by
    rcases Branch.of_path hg hf hb hn hu with hu | ⟨h, -⟩
    · exact ht.sound u p hu hne
    · exact absurd h hr

end Tree

end Recognizer
