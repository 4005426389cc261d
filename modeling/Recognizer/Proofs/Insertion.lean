import Recognizer.Proofs.Tree
/-!
What insertion finds along a word: edges to follow, up to where they give out or the final state
comes too early. Main statements: the four courses that a word can take, and how the branches of
the start are after its insertion.
-/

namespace Recognizer.Automaton

variable {a : Automaton} {r p q : State} {u v w x : Word} {c : Char}

theorem next?_eq_none_iff : a.next? q c = none ↔ ∀ e ∈ a.edges, e.source = q → e.symbol ≠ c := by
  simp [next?]

theorem next?_link (a : Automaton) (size : Nat) (e : Edge) (q : State) (c : Char) :
    ({ a with size, edges := a.edges ++ [e] } : Automaton).next? q c =
      (a.next? q c).or (if e.source = q ∧ e.symbol = c then some e.destination else none) := by
  simp only [next?, List.find?_append, Option.map_or, List.find?_singleton]
  congr 1
  by_cases h : e.source = q ∧ e.symbol = c <;> simp [h]

theorem mem_edges_of_next? (h : a.next? q c = some p) : ⟨q, c, p⟩ ∈ a.edges := by
  simp only [next?, Option.map_eq_some_iff] at h
  obtain ⟨e, he, rfl⟩ := h
  obtain ⟨rfl, rfl⟩ : e.source = q ∧ e.symbol = c := by simpa using List.find?_some he
  exact List.mem_of_find?_eq_some he

theorem next?_eq_some_iff (hg : Grown a.size a.edges) :
    a.next? q c = some p ↔ ⟨q, c, p⟩ ∈ a.edges := by
  refine ⟨mem_edges_of_next?, fun h ↦ ?_⟩
  cases hn : a.next? q c with
  | none => exact absurd rfl (next?_eq_none_iff.1 hn _ h rfl)
  | some o =>
    have he := hg.eq_of_key (mem_edges_of_next? hn) h rfl rfl
    rw [Edge.mk.injEq] at he
    rw [he.2.2]

theorem free_of_next? (h : a.next? q c = none) : Free a.edges q (c :: w) := by
  intro e he hs hc
  exact next?_eq_none_iff.1 h e he hs (by simpa using hc.symm)

theorem free_follow (a : Automaton) (q : State) (w : Word) :
    Free a.edges (a.follow q w).1 (a.follow q w).2 := by
  induction w generalizing q with
  | nil => simp [follow, Free]
  | cons c w ih =>
    rw [follow]
    cases h : a.next? q c with
    | none => exact free_of_next? h
    | some p => exact ih p

/-- Read from where a branch of the start ends, the rest of a word goes on to new ground, ends on
the final state, ends before it, or runs through it. -/
inductive Course (a : Automaton) (v : Word) (q : State) (w : Word) : Prop
  | fresh (x rest : Word) (p : State) : x ++ rest = w → rest ≠ [] →
      Branch a.edges State.start (v ++ x) p → p ≠ State.final → a.clash? q w = none →
      a.follow q w = (p, rest) → Course a v q w
  | known : Branch a.edges State.start (v ++ w) State.final → a.clash? q w = none →
      a.follow q w = (State.final, []) → Course a v q w
  | short (p : State) : Branch a.edges State.start (v ++ w) p → p ≠ State.final →
      a.clash? q w = some w.length → a.follow q w = (p, []) → Course a v q w
  | long (x rest : Word) : x ++ rest = w → rest ≠ [] →
      Branch a.edges State.start (v ++ x) State.final → a.clash? q w = some x.length →
      a.follow q w = a.follow State.final rest → Course a v q w

theorem course (hb : Branch a.edges State.start v q) (w : Word) : Course a v q w := by
  induction w generalizing v q with
  | nil =>
    by_cases hq : q = State.final
    · subst hq
      exact .known (by simpa using hb) rfl rfl
    · exact .short q (by simpa using hb) hq (by simp [clash?, hq]) rfl
  | cons c w ih =>
    by_cases hq : q = State.final
    · subst hq
      exact .long [] (c :: w) rfl (by simp) (by simpa using hb) rfl rfl
    · cases h : a.next? q c with
      | none =>
        exact .fresh [] (c :: w) q rfl (by simp) (by simpa using hb) hq (by simp [clash?, hq, h])
          (by simp [follow, h])
      | some p =>
        have hp : Branch a.edges State.start (v ++ [c]) p :=
          hb.snoc (.inr hq) (mem_edges_of_next? h)
        have hclash : a.clash? q (c :: w) = (a.clash? p w).map (· + 1) := by simp [clash?, hq, h]
        have hfollow : a.follow q (c :: w) = a.follow p w := by simp [follow, h]
        cases ih hp with
        | fresh x rest o hw hr hx ho hc hf =>
          exact .fresh (c :: x) rest o (by simp [hw]) hr (by simpa using hx) ho
            (by simp [hclash, hc]) (hfollow.trans hf)
        | known hx hc hf =>
          exact .known (by simpa using hx) (by simp [hclash, hc]) (hfollow.trans hf)
        | short o hx ho hc hf =>
          exact .short o (by simpa using hx) ho (by simp [hclash, hc]) (hfollow.trans hf)
        | long x rest hw hr hx hc hf =>
          exact .long (c :: x) rest (by simp [hw]) hr (by simpa using hx) (by simp [hclash, hc])
            (hfollow.trans hf)

/-- Beyond the final state, edges are followed on branches that are rooted there. -/
theorem branch_follow (hb : Branch a.edges State.final v q) (w : Word) :
    ∃ u, Branch a.edges State.final u (a.follow q w).1 ∧
      (u = [] ∨ (a.follow q w).1 ≠ State.final) := by
  have hnode : ∃ u, Branch a.edges State.final u q ∧ (u = [] ∨ q ≠ State.final) := by
    by_cases hq : q = State.final
    · exact ⟨[], by rw [hq]; exact .root (.inr rfl), .inl rfl⟩
    · exact ⟨v, hb, .inr hq⟩
  induction w generalizing v q with
  | nil => exact hnode
  | cons c w ih =>
    rw [follow]
    cases h : a.next? q c with
    | none => exact hnode
    | some p =>
      obtain ⟨u, hu, hn⟩ := hnode
      have hp : Branch a.edges State.final (u ++ [c]) p := hu.snoc hn (mem_edges_of_next? h)
      refine ih hp ?_
      by_cases hq : p = State.final
      · exact ⟨[], by rw [hq]; exact .root (.inr rfl), .inl rfl⟩
      · exact ⟨_, hp, .inr hq⟩

theorem follow_lt (hg : Grown a.size a.edges) (hq : q < a.size) (w : Word) :
    (a.follow q w).1 < a.size := by
  induction w generalizing q with
  | nil => exact hq
  | cons c w ih =>
    rw [follow]
    cases h : a.next? q c with
    | none => exact hq
    | some p => exact ih (hg.destination_lt (mem_edges_of_next? h))

theorem follow_ne_fail (hg : Grown a.size a.edges) (hq : q ≠ State.fail) (w : Word) :
    (a.follow q w).1 ≠ State.fail := by
  induction w generalizing q with
  | nil => exact hq
  | cons c w ih =>
    rw [follow]
    cases h : a.next? q c with
    | none => exact hq
    | some p => exact ih (hg.destination_ne_fail (mem_edges_of_next? h))

theorem edges_insert (a : Automaton) (w : Word) : (a.insert w).edges =
    a.edges ++ path a.size (a.follow State.start w).1 (a.follow State.start w).2 := rfl

theorem grown_insert (hg : Grown a.size a.edges) (w : Word) :
    Grown (a.insert w).size (a.insert w).edges := by
  have h3 := hg.three_le
  exact hg.path (follow_lt hg (by lia) w) (follow_ne_fail hg (by lia) w) (free_follow a _ w)

/-- The start is the root of a tree of the kept words. -/
structure Spells (a : Automaton) (kept : List Word) : Prop where
  grown : Grown a.size a.edges
  complete : ∀ w ∈ kept, Branch a.edges State.start w State.final
  sound : ∀ u q, Branch a.edges State.start u q → u ≠ [] → ∃ w ∈ kept, u <+: w

namespace Spells

variable {kept : List Word}

theorem of_tree (hg : Grown a.size a.edges) (ht : Tree a.edges State.start kept) :
    Spells a kept where
  grown := hg
  complete := ht.complete
  sound := ht.sound

theorem empty : Spells Automaton.empty [] := .of_tree .empty (.empty State.start)

theorem ne_nil (h : Branch a.edges State.start w State.final) : w ≠ [] := by
  intro hw
  rw [hw] at h
  exact absurd (Branch.nil_iff.1 h).1 (by decide)

theorem tree (hs : Spells a kept) : Tree a.edges State.start kept where
  ne_nil w hw := ne_nil (hs.complete w hw)
  complete := hs.complete
  sound := hs.sound

theorem branch_final_iff (hs : Spells a kept) :
    Branch a.edges State.start w State.final ↔ w ∈ kept :=
  ⟨fun h ↦ (hs.tree.branch_final_iff hs.grown (ne_nil h)).1 h, hs.complete w⟩

theorem prefixFree (hs : Spells a kept) : PrefixFree kept := hs.tree.prefixFree hs.grown

/-- A word has no rival if it leaves the tree between the start and the ends of branches. -/
theorem not_hasRival_of_free (hs : Spells a kept) (hb : Branch a.edges State.start v q)
    (hq : q ≠ State.final) (hx : x ≠ []) (hf : Free a.edges q x) : ¬ HasRival kept (v ++ x) := by
  intro hrival
  obtain ⟨u, hu, hr⟩ := hrival
  have hnone := hs.tree.not_comparable hs.grown hb (.inr hq) hx hf hu
  exact hr.elim (fun h ↦ hnone.1 h.1) fun h ↦ hnone.2 h.1

/-- The verdict on a word, in terms of the kept words alone. -/
theorem conflictDepth?_eq_some_iff (hs : Spells a kept) (hw : w ≠ []) {depth : Nat} :
    a.conflictDepth? w = some depth ↔ Clashes kept w depth := by
  have hnone (hn : a.conflictDepth? w = none) (hr : ¬ HasRival kept w) :
      a.conflictDepth? w = some depth ↔ Clashes kept w depth := by
    rw [hn]
    exact ⟨nofun, fun hc ↦ absurd hc.hasRival hr⟩
  have hroot : Branch a.edges State.start [] State.start := .root (.inl rfl)
  cases course hroot w with
  | fresh x rest p he hr hx hp hc hf =>
    subst he
    refine hnone hc (hs.not_hasRival_of_free (by simpa using hx) hp hr ?_)
    have h := free_follow a State.start (x ++ rest)
    rwa [hf] at h
  | known hx hc hf => exact hnone hc (hs.prefixFree.not_hasRival (hs.branch_final_iff.1 hx))
  | short p hx hp hc hf =>
    obtain ⟨v, hv, hpre⟩ := hs.sound w p hx hw
    have hwv : ProperPrefix w v := by
      refine ⟨hpre, ?_⟩
      intro he
      rw [← he] at hv
      exact hp (hx.functional hs.grown (hs.complete w hv))
    have hd : a.conflictDepth? w = some w.length := hc
    rw [hd, Option.some.injEq, eq_comm, hs.prefixFree.clashes_of_begins hv hwv]
  | long x rest he hr hx hc hf =>
    have hxk : x ∈ kept := hs.branch_final_iff.1 hx
    have hxw : ProperPrefix x w := properPrefix_iff.2 ⟨rest, hr, he⟩
    have hd : a.conflictDepth? w = some x.length := hc
    rw [hd, Option.some.injEq, eq_comm, hs.prefixFree.clashes_of_extends hxk hxw]

theorem hasRival_iff (hs : Spells a kept) (hw : w ≠ []) :
    (a.conflictDepth? w).isSome ↔ HasRival kept w := by
  rw [Option.isSome_iff_exists]
  constructor
  · intro h
    obtain ⟨depth, hd⟩ := h
    exact ((hs.conflictDepth?_eq_some_iff hw).1 hd).hasRival
  · intro h
    obtain ⟨depth, hc⟩ := exists_clashes h
    exact ⟨depth, (hs.conflictDepth?_eq_some_iff hw).2 hc⟩

theorem accept_of_conflict (hs : Spells a kept) (hw : w ≠ []) {depth : Nat}
    (h : a.conflictDepth? w = some depth) : accept kept w = kept := by
  have hr := (hs.hasRival_iff hw).1 (Option.isSome_iff_exists.2 ⟨depth, h⟩)
  simp [accept, hr]

theorem accept_of_none (hs : Spells a kept) (hw : w ≠ []) (h : a.conflictDepth? w = none) :
    accept kept w = kept ++ [w] := by
  have hr : ¬ HasRival kept w := by
    rw [← hs.hasRival_iff hw, h]
    simp
  simp [accept, hr]

theorem of_same_edges {b : Automaton} {more : List Word} (hs : Spells a kept)
    (hg : Grown b.size b.edges) (he : b.edges = a.edges) (hm : ∀ v, v ∈ more ↔ v ∈ kept) :
    Spells b more := by
  refine ⟨hg, ?_, ?_⟩
  · intro v hv
    rw [he]
    exact hs.complete v ((hm v).1 hv)
  · intro u q hu hne
    rw [he] at hu
    obtain ⟨v, hv, hpre⟩ := hs.sound u q hu hne
    exact ⟨v, (hm v).2 hv, hpre⟩

/-- Insertion keeps a tree of the accepted words at the start. A word that runs through the final
state leaves that tree alone. -/
theorem insert (hs : Spells a kept) (hw : w ≠ []) : Spells (a.insert w) (accept kept w) := by
  have hg := hs.grown
  have hedges := edges_insert a w
  have hfree := free_follow a State.start w
  cases course (.root (.inl rfl)) w with
  | fresh x rest p he hr hx hp hc hf =>
    rw [hs.accept_of_none hw hc]
    rw [hf] at hedges hfree
    have ht := hs.tree.path hg hx (.inr hp) hr hfree
    rw [← hedges, List.nil_append, he] at ht
    exact .of_tree (grown_insert hg w) ht
  | known hx hc hf =>
    have hk : w ∈ kept := hs.branch_final_iff.1 hx
    rw [hs.accept_of_none hw hc]
    exact hs.of_same_edges (grown_insert hg w) (by simpa [hf, path] using hedges) (by simp [hk])
  | short p hx hp hc hf =>
    rw [hs.accept_of_conflict hw hc]
    exact hs.of_same_edges (grown_insert hg w) (by simpa [hf, path] using hedges) (by simp)
  | long x rest he hr hx hc hf =>
    rw [hs.accept_of_conflict hw hc]
    obtain ⟨u, hu, hn⟩ := branch_follow (a := a) (.root (.inr rfl)) rest
    rw [hf] at hedges hfree
    have ht := hs.tree.path_of_ne hg (by decide) hu hn hfree
    rw [← hedges] at ht
    exact .of_tree (grown_insert hg w) ht

end Spells

end Recognizer.Automaton
