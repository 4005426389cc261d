import Mathlib.Data.List.Nodup
import Mathlib.Logic.Relation
import Recognizer.Proofs.Language
import Recognizer.Proofs.Refinement
import Recognizer.Store.Reach
/-!
Which states edges connect. Main statements: the search finds just the states that a chain of edges
connects to the start; and once a word has been taken, these are all but the failing one, and from
each of them a chain leads to the final state.
-/

namespace Recognizer

open Automaton Relation

/-- An edge leads from the one state to the other. -/
def Leads (edges : List Edge) (p q : State) : Prop :=
  ∃ e ∈ edges, e.source = p ∧ e.destination = q

namespace Successors

variable {edges : List Edge} {table : Successors} {seen queue ends : List State} {o p q : State}

theorem of_cons (table : Successors) (r : State) (ends : List State) (q : State) :
    of ((r, ends) :: table) q = if q = r then ends else table.of q := by
  by_cases h : q = r
  · simp [of, h]
  · have hne : (q == r) = false := beq_false_of_ne h
    simp [of, List.lookup_cons, hne, h]

theorem of_add (table : Successors) (q p o : State) :
    (table.add q p).of o = if o = q then table.of o ++ [p] else table.of o := by
  induction table with
  | nil =>
    rw [add, of_cons]
    rfl
  | cons entry table ih =>
    obtain ⟨r, ends⟩ := entry
    rw [add]
    by_cases hr : r = q
    · subst hr
      by_cases h : o = r <;> simp [of_cons, h]
    · by_cases h : o = r
      · simp [of_cons, h, hr]
      · simp [of_cons, h, hr, ih]

theorem of_ofEdges (edges : List Edge) (q : State) :
    (ofEdges edges).of q = (edges.filter (·.source = q)).map (·.destination) := by
  induction edges using List.reverseRecOn with
  | nil => rfl
  | append_singleton edges e ih =>
    rw [ofEdges, List.foldl_concat, ← ofEdges, of_add, ih]
    by_cases h : e.source = q
    · simp [h]
    · simp [h, Ne.symm h]

theorem mem_of_ofEdges : p ∈ (ofEdges edges).of q ↔ Leads edges q p := by
  simp [of_ofEdges, Leads, and_assoc]

/-- What a visit adds to the states seen it adds to the queue; these are the ends not seen before,
each once. -/
theorem visit_eq (seen queue ends : List State) : ∃ fresh : List State,
    visit seen queue ends = (seen ++ fresh, queue ++ fresh) ∧ fresh.Nodup ∧
      (∀ q ∈ fresh, q ∈ ends ∧ q ∉ seen) ∧ ∀ q ∈ ends, q ∈ seen ++ fresh := by
  induction ends generalizing seen queue with
  | nil => exact ⟨[], by simp [visit]⟩
  | cons q ends ih =>
    rw [visit]
    split
    · next hq =>
      obtain ⟨fresh, he, hnodup, hfresh, hall⟩ := ih seen queue
      refine ⟨fresh, he, hnodup, ?_, ?_⟩
      · intro p hp
        exact ⟨List.mem_cons_of_mem q (hfresh p hp).1, (hfresh p hp).2⟩
      · exact List.forall_mem_cons.2 ⟨List.mem_append_left _ hq, hall⟩
    · next hq =>
      obtain ⟨fresh, he, hnodup, hfresh, hall⟩ := ih (seen ++ [q]) (queue ++ [q])
      rw [List.append_assoc, List.append_assoc, List.singleton_append] at he
      have hnew : q ∉ fresh := fun h ↦ (hfresh q h).2 (by simp)
      refine ⟨q :: fresh, he, List.nodup_cons.2 ⟨hnew, hnodup⟩, ?_, ?_⟩
      · refine List.forall_mem_cons.2 ⟨⟨List.mem_cons_self, hq⟩, ?_⟩
        intro p hp
        obtain ⟨hends, hseen⟩ := hfresh p hp
        exact ⟨List.mem_cons_of_mem q hends, fun h ↦ hseen (List.mem_append_left _ h)⟩
      · refine List.forall_mem_cons.2 ⟨by simp, ?_⟩
        intro p hp
        simpa using hall p hp

/-- How a search stands: each state seen is at the end of a chain from the start, and the edges that
leave it have been gone through unless it waits in the queue. -/
structure Searched (edges : List Edge) (seen queue : List State) : Prop where
  nodup : seen.Nodup
  start : State.start ∈ seen
  chain : ∀ q ∈ seen, ReflTransGen (Leads edges) State.start q
  waiting : queue ⊆ seen
  gone : ∀ q ∈ seen, q ∈ queue ∨ ∀ p, Leads edges q p → p ∈ seen

namespace Searched

theorem init (edges : List Edge) : Searched edges [State.start] [State.start] where
  nodup := List.nodup_singleton _
  start := List.mem_singleton_self _
  chain q hq := by
    rw [List.mem_singleton.1 hq]
  waiting := List.Subset.refl _
  gone q hq := .inl hq

/-- The state at the front of the queue has its edges gone through. -/
theorem visit (h : Searched edges seen (q :: queue)) :
    Searched edges (visit seen queue ((ofEdges edges).of q)).1
      (visit seen queue ((ofEdges edges).of q)).2 := by
  obtain ⟨fresh, he, hnodup, hfresh, hall⟩ := visit_eq seen queue ((ofEdges edges).of q)
  have hq : q ∈ seen := h.waiting List.mem_cons_self
  rw [he]
  refine ⟨?_, List.mem_append_left _ h.start, ?_, ?_, ?_⟩
  · refine h.nodup.append hnodup ?_
    intro p hp hf
    exact (hfresh p hf).2 hp
  · rw [List.forall_mem_append]
    refine ⟨h.chain, fun p hp ↦ ?_⟩
    exact (h.chain q hq).tail (mem_of_ofEdges.1 (hfresh p hp).1)
  · apply List.append_subset.2
    exact ⟨fun p hp ↦ List.mem_append_left _ (h.waiting (List.mem_cons_of_mem q hp)),
      List.subset_append_right seen fresh⟩
  · rw [List.forall_mem_append]
    refine ⟨fun p hp ↦ ?_, fun p hp ↦ .inl (List.mem_append_right _ hp)⟩
    rcases h.gone p hp with hw | hgone
    · rcases List.mem_cons.1 hw with rfl | hw
      · exact .inr fun o ho ↦ hall o (mem_of_ofEdges.2 ho)
      · exact .inl (List.mem_append_left _ hw)
    · exact .inr fun o ho ↦ List.mem_append_left _ (hgone o ho)

theorem search (h : Searched edges seen queue) :
    Searched edges ((ofEdges edges).search seen queue) [] := by
  fun_induction Successors.search (ofEdges edges) seen queue with
  | case1 => exact h
  | case2 seen q queue met ih => exact ih h.visit

/-- When nothing waits any more, no edge leads out of what is seen. -/
theorem mem_iff (h : Searched edges seen []) :
    q ∈ seen ↔ ReflTransGen (Leads edges) State.start q := by
  refine ⟨h.chain q, fun hchain ↦ ?_⟩
  induction hchain with
  | refl => exact h.start
  | tail _ he ih => exact (h.gone _ ih).resolve_left List.not_mem_nil _ he

end Searched

end Successors

namespace Store

theorem searched_reachable (s : Store) : Successors.Searched s.edges s.reachable [] :=
  (Successors.Searched.init s.edges).search

/-- The search is sound and complete, whatever the edges are. -/
theorem mem_reachable_iff {s : Store} {q : State} :
    q ∈ s.reachable ↔ ReflTransGen (Leads s.edges) State.start q :=
  s.searched_reachable.mem_iff

end Store

namespace Automaton

variable {a : Automaton} {kept parts : List Word} {p q r : State} {w : Word}

/-- A run that does not fail goes along a chain. -/
theorem chain_of_run (hg : Grown a.size a.edges) (h : a.run q w = p) (hp : p ≠ State.fail) :
    ReflTransGen (Leads a.edges) q p := by
  induction w using List.reverseRecOn generalizing p with
  | nil =>
    rw [← h]
    exact .refl
  | append_singleton w c ih =>
    rw [run_concat] at h
    have hedge := edge_of_step h hp
    exact (ih rfl (hg.source_ne_fail hedge)).tail ⟨_, hedge, rfl, rfl⟩

theorem chain_of_branch (hg : Grown a.size a.edges) (h : Branch a.edges r w q) :
    ReflTransGen (Leads a.edges) r q :=
  chain_of_run hg (run_of_branch hg h) (h.ne_fail hg)

theorem chain_to_final (hs : Spells a kept) (hk : kept ≠ []) :
    ReflTransGen (Leads a.edges) State.start State.final := by
  obtain ⟨w, hw⟩ := List.exists_mem_of_ne_nil kept hk
  exact chain_of_branch hs.grown (hs.complete w hw)

/-- No state is an orphan: it lies on a branch, and both roots are connected to the start. -/
theorem chain_from_start (hs : Spells a kept) (hk : kept ≠ []) (hq : q ∈ a.states)
    (hfail : q ≠ State.fail) : ReflTransGen (Leads a.edges) State.start q := by
  obtain ⟨r, w, hb, -⟩ := hs.grown.exists_branch (mem_states.1 hq) hfail
  have hchain := chain_of_branch hs.grown hb
  rcases hb.root_eq with rfl | rfl
  · exact hchain
  · exact (chain_to_final hs hk).trans hchain

/-- No state is a dead end: each branch goes on to the end of a word of its tree. -/
theorem chain_on_to_final (hs : Spells a kept) (ht : Tree a.edges State.final parts)
    (hk : kept ≠ []) (hq : q ∈ a.states) (hfail : q ≠ State.fail) :
    ReflTransGen (Leads a.edges) q State.final := by
  have hg := hs.grown
  obtain ⟨r, w, hb, -⟩ := hg.exists_branch (mem_states.1 hq) hfail
  by_cases hw : w = []
  · subst hw
    obtain ⟨rfl, rfl | rfl⟩ := Branch.nil_iff.1 hb
    · exact chain_to_final hs hk
    · exact .refl
  · obtain ⟨words, hwords⟩ : ∃ words, Tree a.edges r words := by
      rcases hb.root_eq with rfl | rfl
      · exact ⟨kept, hs.tree⟩
      · exact ⟨parts, ht⟩
    obtain ⟨v, hv, x, rfl⟩ := hwords.sound w q hb hw
    have hrun := run_of_branch hg (hwords.complete _ hv)
    rw [run_append, run_of_branch hg hb] at hrun
    exact chain_of_run hg hrun (by decide)

theorem mem_states_of_chain (hg : Grown a.size a.edges)
    (h : ReflTransGen (Leads a.edges) State.start q) : q ∈ a.states ∧ q ≠ State.fail := by
  have h3 := hg.three_le
  induction h with
  | refl => exact ⟨mem_states.2 (by lia), by decide⟩
  | tail _ he _ =>
    obtain ⟨e, he, rfl, rfl⟩ := he
    exact ⟨mem_states.2 (hg.destination_lt he), hg.destination_ne_fail he⟩

end Automaton

namespace Store

/-- After any history, the search comes to an end with the states that a chain of edges connects to
the start, each once. If a word has been taken, they are all states but the failing one, and a chain
leads from each to the final state. -/
theorem reachable_after (events : List Builder.Event) :
    let s := after events
    s.reachable.Nodup ∧
    (∀ q, q ∈ s.reachable ↔ ReflTransGen (Leads s.edges) State.start q) ∧
    (s.words ≠ [] →
      (∀ q, q ∈ s.reachable ↔ q ∈ s.states ∧ q ≠ State.fail) ∧
      (∀ q ∈ s.reachable, ReflTransGen (Leads s.edges) q State.final) ∧
      ∀ q ∈ s.reachable, q ≠ State.final → TransGen (Leads s.edges) q State.final) := by
  intro s
  refine ⟨s.searched_reachable.nodup, fun q ↦ mem_reachable_iff, fun hne ↦ ?_⟩
  have hautomaton : s.automaton = (Builder.after events).automaton := automaton_after events
  have hs : Spells s.automaton (accepted (Builder.offered events)) := spells_after events
  have hk : accepted (Builder.offered events) ≠ [] :=
    Builder.accepted_ne_nil_after (by rwa [← hautomaton])
  have ht := Builder.tree_after events
  rw [← hautomaton] at ht
  have hstates : s.states = s.automaton.states := (inStep_after events).states_eq
  have hmem (q : State) : q ∈ s.reachable ↔ q ∈ s.states ∧ q ≠ State.fail := by
    rw [mem_reachable_iff, hstates]
    exact ⟨mem_states_of_chain hs.grown, fun h ↦ chain_from_start hs hk h.1 h.2⟩
  have hchain (q : State) (hq : q ∈ s.reachable) : ReflTransGen (Leads s.edges) q State.final := by
    obtain ⟨hq, hfail⟩ := (hmem q).1 hq
    rw [hstates] at hq
    exact chain_on_to_final hs ht hk hq hfail
  refine ⟨hmem, hchain, fun q hq hfinal ↦ ?_⟩
  exact (reflTransGen_iff_eq_or_transGen.1 (hchain q hq)).resolve_left (Ne.symm hfinal)

theorem reachable_after_inner :
    let events : List Builder.Event :=
      [.offer (.text "in"), .offer (.text "int"), .offer (.text "inner")]
    let s := after events
    s.words ≠ [] ∧ (∀ q, q ∈ s.reachable ↔ q ∈ [0, 1, 3, 4, 5]) ∧
      TransGen (Leads s.edges) 4 State.final := by
  intro events s
  have hne : s.words ≠ [] := by decide +kernel
  have hstates : s.states = [0, 1, 2, 3, 4, 5] := by decide +kernel
  obtain ⟨-, -, h⟩ := reachable_after events
  obtain ⟨hall, -, hchain⟩ := h hne
  have hkept : [0, 1, 3, 4, 5] = s.states.filter (· ≠ State.fail) := by
    rw [hstates]
    decide
  have hmem (q : State) : q ∈ s.reachable ↔ q ∈ [0, 1, 3, 4, 5] := by
    rw [hall q, hkept, List.mem_filter, decide_eq_true_eq]
  exact ⟨hne, hmem, hchain 4 ((hmem 4).2 (by decide)) (by decide)⟩

end Store

end Recognizer
