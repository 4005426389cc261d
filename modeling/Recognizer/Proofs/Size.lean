import Mathlib.Data.Set.Card
import Recognizer.Proofs.Renaming
/-!
How many states and edges there are. Each edge has added one branch, and a state unless it enters
the final one, so that edges are counted by what branches spell. Main statement: these are the
beginnings of the texts that lead from a root to the final state, each of which is spelled once.
-/

namespace Recognizer

/-- What is not empty and begins one of the texts. -/
def beginnings (texts : Set Word) : Set Word := {u | u ≠ [] ∧ ∃ w ∈ texts, u <+: w}

def properBeginnings (texts : Set Word) : Set Word :=
  {u | u ≠ [] ∧ ∃ w ∈ texts, ProperPrefix u w}

/-- The texts that branches spell on their way from a root to states of a kind. -/
def spelled (edges : List Edge) (P : State → Prop) : Set (State × Word) :=
  {x | x.2 ≠ [] ∧ ∃ q, P q ∧ Branch edges x.1 x.2 q}

section Spelled

variable {n : Nat} {edges : List Edge} {e : Edge} {r : State} {v w : Word} {words : List Word}
  {P : State → Prop}

theorem beginnings_nil : beginnings {w | w ∈ ([] : List Word)} = ∅ := by
  simp [beginnings]

theorem properBeginnings_nil : properBeginnings {w | w ∈ ([] : List Word)} = ∅ := by
  simp [properBeginnings]

theorem mem_spelled :
    (r, w) ∈ spelled edges P ↔ w ≠ [] ∧ ∃ q, P q ∧ Branch edges r w q := Iff.rfl

theorem spelled_nil (P : State → Prop) : spelled [] P = ∅ := by
  ext ⟨r, w⟩
  rw [mem_spelled]
  refine iff_of_false ?_ (Set.notMem_empty _)
  rintro ⟨hw, q, -, h⟩
  obtain ⟨v, hv, -⟩ := (Tree.empty r).sound w q h hw
  exact List.not_mem_nil hv

/-- A new edge ends one more branch. -/
theorem mem_spelled_link (hg : Grown n edges) (hs : e.source < n)
    (hd : e.destination = State.final ∨ e.destination = n) (hb : Branch edges r v e.source)
    (hn : v = [] ∨ e.source ≠ State.final) {x : State × Word} :
    x ∈ spelled (edges ++ [e]) P ↔
      x ∈ spelled edges P ∨ x = (r, v ++ [e.symbol]) ∧ P e.destination := by
  have hold : edges ⊆ edges ++ [e] := List.subset_append_left _ _
  obtain ⟨r', w⟩ := x
  rw [mem_spelled, mem_spelled, Prod.mk.injEq]
  constructor
  · rintro ⟨hw, q, hq, h⟩
    rcases h.of_link hg hs hd with h | ⟨rfl, u, rfl, hu, hun⟩
    · exact .inl ⟨hw, q, hq, h⟩
    · obtain ⟨rfl, rfl⟩ := hu.unique_node hg hun hb hn
      exact .inr ⟨⟨rfl, rfl⟩, hq⟩
  · rintro (⟨hw, q, hq, h⟩ | ⟨⟨rfl, rfl⟩, hq⟩)
    · exact ⟨hw, q, hq, h.mono hold⟩
    · exact ⟨by simp, _, hq, (hb.mono hold).snoc hn (by simp)⟩

/-- And that branch has not been there before, since no edge has led on by its symbol. -/
theorem notMem_spelled (hg : Grown n edges) (hb : Branch edges r v e.source)
    (hkey : ∀ d ∈ edges, d.source = e.source → d.symbol ≠ e.symbol) :
    (r, v ++ [e.symbol]) ∉ spelled edges P := by
  rintro ⟨-, q, -, h⟩
  obtain ⟨p, hp⟩ := hb.exists_edge hg h
  exact hkey _ hp rfl rfl

/-- There is an edge to a state of a kind for each text that a branch spells on its way there. -/
theorem Grown.encard_spelled (hg : Grown n edges) (P : State → Prop) [DecidablePred P] :
    (spelled edges P).encard = edges.countP fun e ↦ P e.destination := by
  induction hg with
  | empty => simp [spelled_nil]
  | @link n edges e hg hs hf hkey hd ih =>
    obtain ⟨r, v, hb, hn⟩ := hg.exists_branch hs hf
    rw [List.countP_append, List.countP_singleton]
    by_cases hP : P e.destination
    · have hset : spelled (edges ++ [e]) P = insert (r, v ++ [e.symbol]) (spelled edges P) := by
        ext x
        rw [mem_spelled_link hg hs hd hb hn, Set.mem_insert_iff, or_comm, and_iff_left hP]
      rw [hset, Set.encard_insert_of_notMem (notMem_spelled hg hb hkey), ih]
      simp [hP]
    · have hset : spelled (edges ++ [e]) P = spelled edges P := by
        ext x
        rw [mem_spelled_link hg hs hd hb hn, or_iff_left fun h ↦ hP h.2]
      rw [hset, ih]
      simp [hP]

/-- Each edge that does not enter the final state has brought a state with it. -/
theorem Grown.size_eq (hg : Grown n edges) :
    n = 3 + edges.countP fun e ↦ e.destination ≠ State.final := by
  induction hg with
  | empty => rfl
  | @link n edges e hg _ _ _ hd ih =>
    have h3 := hg.three_le
    rw [List.countP_append, List.countP_singleton, ← Nat.add_assoc, ← ih]
    rcases hd with hd | hd
    · simp [hd]
      lia
    · have hne : n ≠ State.final := by lia
      simp [hd, hne]

/-- The two roots spell texts of their own. -/
theorem encard_spelled_eq_add (edges : List Edge) (P : State → Prop) :
    (spelled edges P).encard = {w | (State.start, w) ∈ spelled edges P}.encard +
      {w | (State.final, w) ∈ spelled edges P}.encard := by
  have hunion : spelled edges P =
      Prod.mk State.start '' {w | (State.start, w) ∈ spelled edges P} ∪
        Prod.mk State.final '' {w | (State.final, w) ∈ spelled edges P} := by
    ext ⟨r, w⟩
    constructor
    · intro h
      obtain ⟨-, q, -, hb⟩ := mem_spelled.1 h
      rcases hb.root_eq with rfl | rfl
      · exact .inl ⟨w, h, rfl⟩
      · exact .inr ⟨w, h, rfl⟩
    · rintro (⟨v, h, he⟩ | ⟨v, h, he⟩) <;> exact he ▸ h
  have hdisjoint : Disjoint
      (Prod.mk State.start '' {w | (State.start, w) ∈ spelled edges P})
      (Prod.mk State.final '' {w | (State.final, w) ∈ spelled edges P}) := by
    rw [Set.disjoint_left]
    rintro x ⟨v, -, rfl⟩ ⟨w, -, he⟩
    cases he
  conv_lhs => rw [hunion]
  rw [Set.encard_union_eq hdisjoint, (Prod.mk_right_injective _).encard_image,
    (Prod.mk_right_injective _).encard_image]

namespace Tree

theorem spelled_eq (ht : Tree edges r words) :
    {w | (r, w) ∈ spelled edges fun _ ↦ True} = beginnings {w | w ∈ words} := by
  ext u
  refine and_congr_right fun hu ↦ ?_
  constructor
  · rintro ⟨q, -, h⟩
    exact ht.sound u q h hu
  · rintro ⟨w, hw, x, rfl⟩
    obtain ⟨q, hq, -⟩ := (ht.complete _ hw).exists_of_append
    exact ⟨q, trivial, hq⟩

theorem spelled_open_eq (hg : Grown n edges) (ht : Tree edges r words) :
    {w | (r, w) ∈ spelled edges (· ≠ State.final)} = properBeginnings {w | w ∈ words} := by
  ext u
  refine and_congr_right fun hu ↦ ?_
  constructor
  · rintro ⟨q, hq, h⟩
    obtain ⟨w, hw, hp⟩ := ht.sound u q h hu
    refine ⟨w, hw, hp, ?_⟩
    rintro rfl
    exact hq (h.functional hg (ht.complete u hw))
  · rintro ⟨w, hw, hp⟩
    obtain ⟨x, hx, rfl⟩ := properPrefix_iff.1 hp
    obtain ⟨q, hq, ⟨h, -⟩ | ⟨-, h⟩⟩ := (ht.complete _ hw).exists_of_append
    · exact absurd h hx
    · exact ⟨q, h.resolve_left hu, hq⟩

end Tree

end Spelled

namespace Automaton

variable {a : Automaton} {kept parts words : List Word} {r : State} {w : Word}

/-- The word leads from the state to the final one, and meets that nowhere in between. -/
def Passage (a : Automaton) (r : State) (w : Word) : Prop :=
  w ≠ [] ∧ a.run r w = State.final ∧
    ∀ v, v ≠ [] → ProperPrefix v w → a.run r v ≠ State.final

theorem passage_iff (hg : Grown a.size a.edges) (ht : Tree a.edges r words)
    (hr : r = State.start ∨ r = State.final) : a.Passage r w ↔ w ∈ words := by
  by_cases hw : w = []
  · exact iff_of_false (fun h ↦ h.1 hw) fun h ↦ ht.ne_nil w h hw
  · rw [← ht.branch_final_iff hg hw, branch_from_iff_run hg hr, Passage]
    simp [hw]

theorem length_edges_eq (hg : Grown a.size a.edges) (hs : Tree a.edges State.start kept)
    (ht : Tree a.edges State.final parts) : (a.edges.length : ℕ∞) =
      (beginnings {w | w ∈ kept}).encard + (beginnings {w | w ∈ parts}).encard := by
  rw [← hs.spelled_eq, ← ht.spelled_eq, ← encard_spelled_eq_add, hg.encard_spelled]
  simp

theorem length_states_eq (hg : Grown a.size a.edges) (hs : Tree a.edges State.start kept)
    (ht : Tree a.edges State.final parts) : (a.states.length : ℕ∞) =
      3 + (properBeginnings {w | w ∈ kept}).encard +
        (properBeginnings {w | w ∈ parts}).encard := by
  rw [← hs.spelled_open_eq hg, ← ht.spelled_open_eq hg, add_assoc, ← encard_spelled_eq_add,
    hg.encard_spelled, states, List.length_range, hg.size_eq]
  simp

end Automaton

namespace Builder

open Automaton

/-- After any history, there are as many edges as beginnings of texts that lead from the start to
the final state, or from there back to it, and three states more than proper ones. If no word taken
begins another, these are the beginnings of the words. -/
theorem size_after (events : List Event) :
    let a := (after events).automaton
    let first : Set Word := {w | a.Passage State.start w}
    let next : Set Word := {w | a.Passage State.final w}
    let taken : Set Word := {w | w ∈ a.words}
    (a.edges.length : ℕ∞) = (beginnings first).encard + (beginnings next).encard ∧
    (a.states.length : ℕ∞) =
      3 + (properBeginnings first).encard + (properBeginnings next).encard ∧
    (PrefixFree a.words →
      (a.edges.length : ℕ∞) = (beginnings taken).encard ∧
      (a.states.length : ℕ∞) = 3 + (properBeginnings taken).encard) := by
  intro a first next taken
  have hspells : Spells a (accepted (offered events)) := (holds_after events).tree
  have hg := hspells.grown
  have hs := hspells.tree
  have ht := tree_after events
  have hfirst : first = {w | w ∈ accepted (offered events)} :=
    Set.ext fun _ ↦ passage_iff hg hs (.inl rfl)
  have hnext : next = {w | w ∈ remainders (accepted (offered events)) a.words} :=
    Set.ext fun _ ↦ passage_iff hg ht (.inr rfl)
  rw [hfirst, hnext]
  refine ⟨length_edges_eq hg hs ht, length_states_eq hg hs ht, fun hf ↦ ?_⟩
  have htrie : Trie a a.words := by
    have h := Trie.ofWords (ne_nil_of_mem_words_after events) hf
    rwa [← eq_ofWords_after] at h
  have hedges := length_edges_eq hg htrie.spells.tree htrie.ends
  have hstates := length_states_eq hg htrie.spells.tree htrie.ends
  rw [beginnings_nil, Set.encard_empty, add_zero] at hedges
  rw [properBeginnings_nil, Set.encard_empty, add_zero] at hstates
  exact ⟨hedges, hstates⟩

theorem size_after_if_in :
    let events : List Event := [.offer (.text "if"), .offer (.text "in"), .offer (.text "is")]
    let a := (after events).automaton
    let taken : Set Word := {w | w ∈ a.words}
    PrefixFree a.words ∧ (beginnings taken).encard = 4 ∧
      3 + (properBeginnings taken).encard = 4 := by
  intro events a taken
  have hf : PrefixFree a.words := by
    unfold PrefixFree
    decide
  have hsize : a.edges.length = 4 ∧ a.states.length = 4 := by decide
  obtain ⟨-, -, h⟩ := size_after events
  obtain ⟨hedges, hstates⟩ := h hf
  rw [hsize.1] at hedges
  rw [hsize.2] at hstates
  exact ⟨hf, hedges.symm, hstates.symm⟩

end Builder

end Recognizer
