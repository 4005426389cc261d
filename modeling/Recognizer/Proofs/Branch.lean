import Mathlib.Data.List.Induction
import Mathlib.Order.MinMax
import Recognizer.Automaton.Insert
/-!
Edges as they come about, one at a time, and the branches that they form: two trees, one rooted at
the start and one at the final state, where branches of both trees end. Main statements: a state
other than the final one lies on one branch only, and a fresh path adds one branch.
-/

namespace Recognizer

/-- The states so far, and the edges, the last of which leaves a state by a symbol that no edge
leaves it by yet, and enters the final state or a new one. -/
inductive Grown : Nat → List Edge → Prop
  | empty : Grown 3 []
  | link {n : Nat} {edges : List Edge} (e : Edge) :
      Grown n edges → e.source < n → e.source ≠ State.fail →
      (∀ d ∈ edges, d.source = e.source → d.symbol ≠ e.symbol) →
      e.destination = State.final ∨ e.destination = n →
      Grown (max n (e.destination + 1)) (edges ++ [e])

/-- The word leads from the root `r` to the state, and meets the final state nowhere in between. -/
inductive Branch (edges : List Edge) (r : State) : Word → State → Prop
  | root : r = State.start ∨ r = State.final → Branch edges r [] r
  | snoc {w : Word} {e : Edge} : Branch edges r w e.source → w = [] ∨ e.source ≠ State.final →
      e ∈ edges → Branch edges r (w ++ [e.symbol]) e.destination

namespace Grown

variable {n : Nat} {edges : List Edge}

theorem three_le (h : Grown n edges) : 3 ≤ n := by
  induction h with
  | empty => exact Nat.le_refl 3
  | link e h _ _ _ _ ih => exact le_max_of_le_left ih

theorem source_lt (h : Grown n edges) {e : Edge} (he : e ∈ edges) : e.source < n := by
  induction h with
  | empty => simp at he
  | link d h hd _ _ _ ih =>
    rcases List.mem_append.1 he with he | he
    · exact lt_max_of_lt_left (ih he)
    · rw [List.mem_singleton.1 he]
      exact lt_max_of_lt_left hd

theorem source_ne_fail (h : Grown n edges) {e : Edge} (he : e ∈ edges) :
    e.source ≠ State.fail := by
  induction h with
  | empty => simp at he
  | link d h _ hd _ _ ih =>
    rcases List.mem_append.1 he with he | he
    · exact ih he
    · rwa [List.mem_singleton.1 he]

theorem destination_lt (h : Grown n edges) {e : Edge} (he : e ∈ edges) : e.destination < n := by
  induction h with
  | empty => simp at he
  | link d h _ _ _ _ ih =>
    rcases List.mem_append.1 he with he | he
    · exact lt_max_of_lt_left (ih he)
    · rw [List.mem_singleton.1 he]
      exact lt_max_of_lt_right (Nat.lt_succ_self _)

/-- Edges enter the final state or states that were new when they were added. -/
theorem destination_eq_final_or_le (h : Grown n edges) {e : Edge} (he : e ∈ edges) :
    e.destination = State.final ∨ 3 ≤ e.destination := by
  induction h with
  | empty => simp at he
  | link d h _ _ _ hd ih =>
    rcases List.mem_append.1 he with he | he
    · exact ih he
    · rw [List.mem_singleton.1 he]
      refine hd.imp_right fun hn ↦ ?_
      rw [hn]
      exact h.three_le

theorem destination_ne_start (h : Grown n edges) {e : Edge} (he : e ∈ edges) :
    e.destination ≠ State.start := by
  rcases h.destination_eq_final_or_le he with hd | hd <;> lia

theorem destination_ne_fail (h : Grown n edges) {e : Edge} (he : e ∈ edges) :
    e.destination ≠ State.fail := by
  rcases h.destination_eq_final_or_le he with hd | hd <;> lia

theorem eq_of_key (h : Grown n edges) {d e : Edge} (hd : d ∈ edges) (he : e ∈ edges)
    (hs : d.source = e.source) (hc : d.symbol = e.symbol) : d = e := by
  induction h with
  | empty => simp at hd
  | link f h _ _ hf _ ih =>
    rw [List.mem_append, List.mem_singleton] at hd he
    rcases hd with hd | rfl <;> rcases he with he | rfl
    · exact ih hd he
    · exact absurd hc (hf d hd hs)
    · exact absurd hc.symm (hf e he hs.symm)
    · rfl

theorem eq_of_destination (h : Grown n edges) {d e : Edge} (hd : d ∈ edges) (he : e ∈ edges)
    (hq : d.destination = e.destination) (hn : e.destination ≠ State.final) : d = e := by
  induction h with
  | empty => simp at hd
  | link f h _ _ _ hf ih =>
    rw [List.mem_append, List.mem_singleton] at hd he
    rcases hd with hd | rfl <;> rcases he with he | rfl
    · exact ih hd he
    · exact absurd (hq.trans (hf.resolve_left hn)) (Nat.ne_of_lt (h.destination_lt hd))
    · exact absurd (hq.symm.trans (hf.resolve_left (hq ▸ hn))) (Nat.ne_of_lt (h.destination_lt he))
    · rfl

end Grown

namespace Branch

variable {n : Nat} {edges more : List Edge} {r r' q q' : State} {v w x : Word} {c : Char}

theorem nil_iff : Branch edges r [] q ↔ q = r ∧ (r = State.start ∨ r = State.final) := by
  constructor
  · intro h
    generalize hw : ([] : Word) = w at h
    cases h with
    | root h => exact ⟨rfl, h⟩
    | snoc => simp at hw
  · intro h
    rw [h.1]
    exact .root h.2

theorem concat_iff : Branch edges r (w ++ [c]) q ↔
    ∃ p, Branch edges r w p ∧ (w = [] ∨ p ≠ State.final) ∧ ⟨p, c, q⟩ ∈ edges := by
  constructor
  · intro h
    generalize hw : w ++ [c] = u at h
    cases h with
    | root h => simp at hw
    | @snoc u e h hn he =>
      obtain ⟨rfl, rfl⟩ : w = u ∧ c = e.symbol := by simpa using hw
      exact ⟨e.source, h, hn, he⟩
  · intro h
    obtain ⟨p, h, hn, he⟩ := h
    exact h.snoc hn he

theorem mono (h : Branch edges r w q) (hs : edges ⊆ more) : Branch more r w q := by
  induction h with
  | root h => exact .root h
  | snoc _ hn he ih => exact ih.snoc hn (hs he)

theorem root_eq (h : Branch edges r w q) : r = State.start ∨ r = State.final := by
  induction h with
  | root hr => exact hr
  | snoc _ _ _ ih => exact ih

theorem lt (hg : Grown n edges) (h : Branch edges r w q) : q < n := by
  cases h with
  | root hr =>
    have h3 := hg.three_le
    lia
  | snoc _ _ he => exact hg.destination_lt he

theorem ne_fail (hg : Grown n edges) (h : Branch edges r w q) : q ≠ State.fail := by
  cases h with
  | root hr => lia
  | snoc _ _ he => exact hg.destination_ne_fail he

/-- Along a branch to its end: the part before the end does not end on the final state. -/
theorem exists_of_append (h : Branch edges r (v ++ x) q) :
    ∃ p, Branch edges r v p ∧ (x = [] ∧ p = q ∨ x ≠ [] ∧ (v = [] ∨ p ≠ State.final)) := by
  induction x using List.reverseRecOn generalizing q with
  | nil => exact ⟨q, by simpa using h, .inl ⟨rfl, rfl⟩⟩
  | append_singleton x c ih =>
    rw [← List.append_assoc, concat_iff] at h
    obtain ⟨p, hp, hn, -⟩ := h
    obtain ⟨o, ho, hx⟩ := ih hp
    refine ⟨o, ho, .inr ⟨by simp, ?_⟩⟩
    rcases hx with ⟨rfl, rfl⟩ | ⟨-, hx⟩
    · simpa using hn
    · exact hx

theorem functional (hg : Grown n edges) (h : Branch edges r w q) (h' : Branch edges r w q') :
    q = q' := by
  induction w using List.reverseRecOn generalizing q q' with
  | nil => exact (nil_iff.1 h).1.trans (nil_iff.1 h').1.symm
  | append_singleton w c ih =>
    obtain ⟨p, hp, -, he⟩ := concat_iff.1 h
    obtain ⟨p', hp', -, he'⟩ := concat_iff.1 h'
    obtain rfl := ih hp hp'
    have hd := hg.eq_of_key he he' rfl rfl
    rw [Edge.mk.injEq] at hd
    exact hd.2.2

/-- Branches end where they meet the final state. -/
theorem eq_nil_of_final (hg : Grown n edges) (h : Branch edges r w State.final) (hw : w ≠ [])
    (h' : Branch edges r (w ++ x) q) : x = [] := by
  obtain ⟨p, hp, hx⟩ := h'.exists_of_append
  obtain rfl := hp.functional hg h
  rcases hx with ⟨hx, -⟩ | ⟨-, hx⟩
  · exact hx
  · exact absurd rfl (hx.resolve_left hw)

theorem exists_edge (hg : Grown n edges) (h : Branch edges r v q)
    (h' : Branch edges r (v ++ c :: x) q') : ∃ p, ⟨q, c, p⟩ ∈ edges := by
  have hv : v ++ c :: x = v ++ [c] ++ x := by simp
  obtain ⟨p, hp, -⟩ := (hv ▸ h').exists_of_append
  obtain ⟨o, ho, -, he⟩ := concat_iff.1 hp
  obtain rfl := h.functional hg ho
  exact ⟨p, he⟩

/-- A state other than the final one lies on one branch only. -/
theorem unique (hg : Grown n edges) (h : Branch edges r w q) (h' : Branch edges r' v q)
    (hq : q ≠ State.final) : r = r' ∧ w = v := by
  induction h generalizing v with
  | root hr =>
    induction v using List.reverseRecOn with
    | nil => exact ⟨(nil_iff.1 h').1, rfl⟩
    | append_singleton v c =>
      obtain ⟨p, -, -, he⟩ := concat_iff.1 h'
      exact absurd (hr.resolve_right hq) (hg.destination_ne_start he)
  | @snoc w e h hn he ih =>
    induction v using List.reverseRecOn with
    | nil =>
      obtain ⟨hd, hr⟩ := nil_iff.1 h'
      exact absurd (hd.trans (hr.resolve_right (hd ▸ hq))) (hg.destination_ne_start he)
    | append_singleton v c =>
      obtain ⟨p, hp, hm, he'⟩ := concat_iff.1 h'
      have hd := hg.eq_of_destination he he' rfl hq
      obtain ⟨rfl, rfl⟩ : p = e.source ∧ c = e.symbol := by rw [hd]; exact ⟨rfl, rfl⟩
      by_cases hs : e.source = State.final
      · obtain rfl := hn.resolve_right (not_not.2 hs)
        obtain rfl := hm.resolve_right (not_not.2 hs)
        exact ⟨(nil_iff.1 h).1.symm.trans (nil_iff.1 hp).1, rfl⟩
      · obtain ⟨rfl, rfl⟩ := ih hp hs
        exact ⟨rfl, rfl⟩

/-- Where branches can go on, each state lies on one. -/
theorem unique_node (hg : Grown n edges) (h : Branch edges r w q) (hw : w = [] ∨ q ≠ State.final)
    (h' : Branch edges r' v q) (hv : v = [] ∨ q ≠ State.final) : r = r' ∧ w = v := by
  by_cases hq : q = State.final
  · obtain rfl := hw.resolve_right (not_not.2 hq)
    obtain rfl := hv.resolve_right (not_not.2 hq)
    exact ⟨(nil_iff.1 h).1.symm.trans (nil_iff.1 h').1, rfl⟩
  · exact h.unique hg h' hq

/-- A new edge ends a branch where it leaves one, and adds nothing else. -/
theorem of_link (hg : Grown n edges) {e : Edge} (hs : e.source < n)
    (hd : e.destination = State.final ∨ e.destination = n) (h : Branch (edges ++ [e]) r w q) :
    Branch edges r w q ∨ q = e.destination ∧
      ∃ v, w = v ++ [e.symbol] ∧ Branch edges r v e.source ∧ (v = [] ∨ e.source ≠ State.final) := by
  induction h with
  | root hr => exact .inl (.root hr)
  | @snoc w d h hn hm ih =>
    rcases ih with ih | ⟨hq, v, rfl, -, -⟩
    · rw [List.mem_append, List.mem_singleton] at hm
      rcases hm with hm | rfl
      · exact .inl (ih.snoc hn hm)
      · exact .inr ⟨rfl, w, rfl, ih, hn⟩
    · -- no edge goes on from where the new one ends
      have hn' : d.source ≠ State.final := by simpa using hn
      have hdn : d.source = n := by rw [hq]; exact hd.resolve_left (hq ▸ hn')
      rw [List.mem_append, List.mem_singleton] at hm
      rcases hm with hm | rfl
      · exact absurd hdn (Nat.ne_of_lt (hg.source_lt hm))
      · exact absurd hdn (Nat.ne_of_lt hs)

theorem of_link_at (hg : Grown n edges) {e : Edge} (hs : e.source < n)
    (hd : e.destination = State.final ∨ e.destination = n) (hb : Branch edges r v e.source)
    (hn : v = [] ∨ e.source ≠ State.final) (h : Branch (edges ++ [e]) r' w q) :
    Branch edges r' w q ∨ r' = r ∧ w = v ++ [e.symbol] := by
  rcases h.of_link hg hs hd with h | ⟨-, u, rfl, hu, hun⟩
  · exact .inl h
  · obtain ⟨rfl, rfl⟩ := hu.unique_node hg hun hb hn
    exact .inr ⟨rfl, rfl⟩

end Branch

/-- A state that has been made lies on a branch, and branches can go on from it. -/
theorem Grown.exists_branch {n : Nat} {edges : List Edge} {q : State} (h : Grown n edges)
    (hq : q < n) (hfail : q ≠ State.fail) :
    ∃ r w, Branch edges r w q ∧ (w = [] ∨ q ≠ State.final) := by
  induction h generalizing q with
  | empty =>
    have hroot : q = State.start ∨ q = State.final := by lia
    exact ⟨q, [], .root hroot, .inl rfl⟩
  | @link n edges e h hs hf _ hd ih =>
    by_cases hn : q < n
    · obtain ⟨r, w, hb, hw⟩ := ih hn hfail
      exact ⟨r, w, hb.mono (List.subset_append_left _ _), hw⟩
    · obtain rfl : q = e.destination := by lia
      have h3 := h.three_le
      obtain ⟨r, w, hb, hw⟩ := ih hs hf
      have hmono := hb.mono (List.subset_append_left edges [e])
      exact ⟨r, w ++ [e.symbol], hmono.snoc hw (by simp), .inr (by lia)⟩

section Path

open Automaton

variable {n : Nat} {edges : List Edge} {r r' p q : State} {u v w : Word} {c : Char}

/-- No edge leaves `q` by the first symbol of the word. -/
def Free (edges : List Edge) (q : State) (w : Word) : Prop :=
  ∀ d ∈ edges, d.source = q → w.head? ≠ some d.symbol

theorem Grown.link_new (hg : Grown n edges) (hq : q < n) (hf : q ≠ State.fail)
    (hn : Free edges q (c :: w)) : Grown (n + 1) (edges ++ [⟨q, c, n⟩]) := by
  have h := hg.link ⟨q, c, n⟩ hq hf (fun d hd hs hc ↦ hn d hd hs (by simp [hc])) (.inr rfl)
  rwa [max_eq_right (Nat.le_succ n)] at h

theorem Grown.link_final (hg : Grown n edges) (hq : q < n) (hf : q ≠ State.fail)
    (hn : Free edges q (c :: w)) : Grown n (edges ++ [⟨q, c, State.final⟩]) := by
  have h := hg.link ⟨q, c, State.final⟩ hq hf (fun d hd hs hc ↦ hn d hd hs (by simp [hc]))
    (.inl rfl)
  rwa [max_eq_left (by have := hg.three_le; lia)] at h

theorem Grown.free_new (hg : Grown n edges) (hq : q < n) (w : Word) :
    Free (edges ++ [⟨q, c, n⟩]) n w := by
  intro d hd hs
  rw [List.mem_append, List.mem_singleton] at hd
  rcases hd with hd | rfl
  · exact absurd hs (Nat.ne_of_lt (hg.source_lt hd))
  · exact absurd hs (Nat.ne_of_lt hq)

theorem Grown.path (hg : Grown n edges) (hq : q < n) (hf : q ≠ State.fail)
    (hn : Free edges q w) : Grown (n + (w.length - 1)) (edges ++ Automaton.path n q w) := by
  induction w generalizing n edges q with
  | nil => simpa [Automaton.path] using hg
  | cons c w ih =>
    cases w with
    | nil => exact hg.link_final hq hf hn
    | cons c' w =>
      have h := ih (hg.link_new hq hf hn) (Nat.lt_succ_self n) (by have := hg.three_le; lia)
        (hg.free_new hq _)
      simpa [Automaton.path, Nat.add_assoc, Nat.add_comm 1] using h

/-- The fresh path leads the branch on to the final state. -/
theorem Branch.path (h3 : 3 ≤ n) (hb : Branch edges r v q) (hn : v = [] ∨ q ≠ State.final)
    (hw : w ≠ []) : Branch (edges ++ Automaton.path n q w) r (v ++ w) State.final := by
  induction w generalizing n edges q v with
  | nil => exact absurd rfl hw
  | cons c w ih =>
    cases w with
    | nil =>
      exact (hb.mono (List.subset_append_left _ _)).snoc (e := ⟨q, c, State.final⟩) hn
        (by simp [Automaton.path])
    | cons c' w =>
      have hs : Branch (edges ++ [⟨q, c, n⟩]) r (v ++ [c]) n :=
        (hb.mono (List.subset_append_left _ _)).snoc (e := ⟨q, c, n⟩) hn (by simp)
      have h := ih (n := n + 1) (by lia) hs (.inr (by lia)) (by simp)
      simpa [Automaton.path] using h

/-- And no other branch is added but those along the path. -/
theorem Branch.of_path (hg : Grown n edges) (hfree : Free edges q w) (hb : Branch edges r v q)
    (hn : v = [] ∨ q ≠ State.final) (h : Branch (edges ++ Automaton.path n q w) r' u p) :
    Branch edges r' u p ∨ r' = r ∧ u <+: v ++ w := by
  induction w generalizing n edges q v with
  | nil => exact .inl (by simpa [Automaton.path] using h)
  | cons c w ih =>
    have hq := hb.lt hg
    have hf := hb.ne_fail hg
    cases w with
    | nil =>
      refine (Branch.of_link_at (e := ⟨q, c, State.final⟩) hg hq (.inl rfl) hb hn h).imp_right
        (And.imp_right ?_)
      intro hu
      exact hu ▸ List.prefix_refl (v ++ [c])
    | cons c' w =>
      have hs : Branch (edges ++ [⟨q, c, n⟩]) r (v ++ [c]) n :=
        (hb.mono (List.subset_append_left _ _)).snoc (e := ⟨q, c, n⟩) hn (by simp)
      have h3 := hg.three_le
      rcases ih (hg.link_new hq hf hfree) (hg.free_new hq _) hs (.inr (by lia))
        (by simpa [Automaton.path] using h) with h | h
      · refine (Branch.of_link_at (e := ⟨q, c, n⟩) hg hq (.inr rfl) hb hn h).imp_right
          (And.imp_right ?_)
        intro hu
        rw [hu]
        exact ⟨c' :: w, by simp⟩
      · simpa using Or.inr h

end Path

end Recognizer
