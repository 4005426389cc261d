import Recognizer.Proofs.Acceptance
import Recognizer.Proofs.Remainders
import Recognizer.Proofs.Replay
/-!
What runs from the start read when they go on behind the final state. The remainders of words that
run through it are a tree rooted there, where each branch that ends leads back to the root. Main
statement: runs end on the final state after an accepted word and any number of remainders.
-/

namespace Recognizer

open Automaton

namespace Tree

variable {a : Automaton} {kept parts : List Word} {q : State} {u w : Word}

/-- Behind the final state, edges take off the parts that stand there, up to where the rest leaves
the tree. -/
theorem exists_follow (hg : Grown a.size a.edges) (ht : Tree a.edges State.final parts)
    (hb : Branch a.edges State.final u q) (hn : u = [] ∨ q ≠ State.final) (w : Word) :
    ∃ v, Branch a.edges State.final v (a.follow q w).1 ∧
      (v = [] ∨ (a.follow q w).1 ≠ State.final) ∧ strip parts (u ++ w) = v ++ (a.follow q w).2 := by
  induction w generalizing u q with
  | nil =>
    refine ⟨u, hb, hn, ?_⟩
    simp only [follow, List.append_nil]
    exact strip_of_none (front?_eq_none_iff.2 fun p hp _ ↦ ht.not_prefix_node hg hb hn hp)
  | cons c w ih =>
    rw [follow]
    cases h : a.next? q c with
    | none =>
      refine ⟨u, hb, hn, strip_of_none (front?_eq_none_iff.2 fun p hp _ ↦ ?_)⟩
      exact (ht.not_comparable hg hb hn (by simp) (free_of_next? h) hp).1
    | some p =>
      have hp : Branch a.edges State.final (u ++ [c]) p := hb.snoc hn (mem_edges_of_next? h)
      have hw : u ++ c :: w = u ++ [c] ++ w := by simp
      rw [hw]
      by_cases hf : p = State.final
      · subst hf
        have hpart := (ht.branch_final_iff hg (by simp)).1 hp
        rw [strip_append (ht.prefixFree hg) hpart (by simp)]
        exact ih (.root (.inr rfl)) (.inl rfl)
      · exact ih hp (.inr hf)

/-- What is left of a word behind the final state is where its fresh path ends. -/
theorem path_follow (hg : Grown a.size a.edges) (ht : Tree a.edges State.final parts) (w : Word) :
    Tree (a.edges ++
      Automaton.path a.size (a.follow State.final w).1 (a.follow State.final w).2) State.final
      (addPart parts w) := by
  obtain ⟨v, hv, hn, hstrip⟩ := ht.exists_follow hg (.root (.inr rfl)) (.inl rfl) w
  have hfree := free_follow a State.final w
  generalize a.follow State.final w = rest at hv hn hstrip hfree ⊢
  rw [List.nil_append] at hstrip
  by_cases hx : rest.2 = []
  · have hold : strip parts w = [] ∨ ∃ p ∈ parts, ProperPrefix (strip parts w) p := by
      rw [hstrip, hx, List.append_nil]
      by_cases hnil : v = []
      · exact .inl hnil
      · obtain ⟨p, hp, hpre⟩ := ht.sound v _ hv hnil
        refine .inr ⟨p, hp, hpre, ?_⟩
        rintro rfl
        exact hn.resolve_left hnil (hv.functional hg (ht.complete v hp))
    rw [addPart, if_pos hold, hx]
    simpa [Automaton.path] using ht
  · have hnew : ¬ (strip parts w = [] ∨ ∃ p ∈ parts, ProperPrefix (strip parts w) p) := by
      rw [hstrip]
      rintro (h | ⟨p, hp, h⟩)
      · exact hx (List.append_eq_nil_iff.1 h).2
      · exact (ht.not_comparable hg hv hn hx hfree hp).2 h.1
    rw [addPart, if_neg hnew, hstrip]
    exact ht.path hg hv hn hx hfree

/-- Insertion keeps a tree of the remainders at the final state. -/
theorem insert (hs : Spells a kept) (ht : Tree a.edges State.final (remainders kept a.words))
    (hwords : ∀ v ∈ a.words, v ∈ kept ∨ HasRival kept v) (hw : w ≠ []) :
    Tree (a.insert w).edges State.final (remainders (accept kept w) (a.insert w).words) := by
  have hg := hs.grown
  have hedges := edges_insert a w
  have hfree := free_follow a State.start w
  have hremainders : remainders (accept kept w) (a.insert w).words =
      (tail? kept w).elim (remainders kept a.words) (addPart (remainders kept a.words)) := by
    rw [Automaton.insert, remainders_concat, remainders_accept hwords, tail?_accept_self]
  have hnone (hc : a.conflictDepth? w = none) : tail? kept w = none := by
    refine tail?_eq_none_iff.2 fun u hu hp ↦ ?_
    have hsome := (hs.hasRival_iff hw).2 ⟨u, hu, .inl hp⟩
    simp [hc] at hsome
  rw [hremainders]
  cases course (.root (.inl rfl)) w with
  | fresh x rest p he hr hx hp hc hf =>
    rw [hf] at hedges hfree
    rw [hnone hc, hedges]
    exact ht.path_of_ne hg (by decide) hx (.inr hp) hfree
  | known hx hc hf =>
    rw [hnone hc, hedges, hf]
    simpa [Automaton.path] using ht
  | short p hx hp hc hf =>
    obtain ⟨v, hv, hpre⟩ := hs.sound w p (by simpa using hx) hw
    have htail : tail? kept w = none :=
      tail?_eq_none_iff.2 fun u hu h ↦ hs.prefixFree.not_between hu hv h hpre
    rw [htail, hedges, hf]
    simpa [Automaton.path] using ht
  | long x rest he hr hx hc hf =>
    have hk : x ∈ kept := hs.branch_final_iff.1 hx
    rw [← he, tail?_append hs.prefixFree hk hr, he, hedges, hf]
    exact ht.path_follow hg rest

end Tree

namespace Automaton

variable {a : Automaton} {kept parts : List Word} {q r : State} {text w : Word}

theorem mem_trace : q ∈ a.trace r w ↔ ∃ v, v <+: w ∧ a.run r v = q := by
  induction w generalizing r with
  | nil => simp [trace, eq_comm]
  | cons c w ih =>
    rw [trace, List.mem_cons, ih]
    constructor
    · rintro (rfl | ⟨v, hv, rfl⟩)
      · exact ⟨[], List.nil_prefix, rfl⟩
      · exact ⟨c :: v, (List.prefix_cons_inj c).2 hv, rfl⟩
    · rintro ⟨v, hv, rfl⟩
      cases v with
      | nil => exact .inl rfl
      | cons d v =>
        obtain ⟨rfl, hvw⟩ := List.cons_prefix_cons.1 hv
        exact .inr ⟨v, hvw, rfl⟩

theorem run_of_branch (hg : Grown a.size a.edges) (h : Branch a.edges r w q) : a.run r w = q := by
  induction h with
  | root => rfl
  | snoc _ _ he ih => rw [run_concat, ih, step_of_edge hg he]

theorem run_chain (hs : Spells a kept) (ht : Tree a.edges State.final parts)
    (h : Chain kept parts w) : a.run State.start w = State.final := by
  induction h with
  | head hu => exact run_of_branch hs.grown (hs.complete _ hu)
  | snoc _ hp ih => rw [run_append, ih, run_of_branch hs.grown (ht.complete _ hp)]

/-- A run that has not failed is on its way to the end of an accepted word, or behind a chain on its
way to the end of a part. -/
theorem exists_chain_of_run (hs : Spells a kept) (ht : Tree a.edges State.final parts)
    (h : a.run State.start text ≠ State.fail) :
    (Branch a.edges State.start text (a.run State.start text) ∧
      a.run State.start text ≠ State.final) ∨
    ∃ z y, Chain kept parts z ∧ z ++ y = text ∧
      Branch a.edges State.final y (a.run State.start text) ∧
      (y = [] ∨ a.run State.start text ≠ State.final) := by
  have hg := hs.grown
  induction text using List.reverseRecOn with
  | nil => exact .inl ⟨.root (.inl rfl), by rw [run_nil]; decide⟩
  | append_singleton text c ih =>
    have hedge := edge_of_step (run_concat a State.start text c).symm h
    rcases ih (hg.source_ne_fail hedge) with ⟨hb, hf⟩ | ⟨z, y, hz, rfl, hb, hn⟩
    · have hnext := hb.snoc (.inr hf) hedge
      by_cases hfinal : a.run State.start (text ++ [c]) = State.final
      · rw [hfinal] at hnext ⊢
        exact .inr ⟨_, [], .head (hs.branch_final_iff.1 hnext), by simp, .root (.inr rfl), .inl rfl⟩
      · exact .inl ⟨hnext, hfinal⟩
    · have hnext := hb.snoc hn hedge
      by_cases hfinal : a.run State.start (z ++ y ++ [c]) = State.final
      · rw [hfinal] at hnext ⊢
        have hpart := (ht.branch_final_iff hg (by simp)).1 hnext
        exact .inr ⟨_, [], hz.snoc hpart, by simp, .root (.inr rfl), .inl rfl⟩
      · exact .inr ⟨z, y ++ [c], hz, by simp, hnext, .inr hfinal⟩

theorem run_eq_final_iff (hs : Spells a kept) (ht : Tree a.edges State.final parts) :
    a.run State.start text = State.final ↔ Chain kept parts text := by
  refine ⟨fun h ↦ ?_, run_chain hs ht⟩
  rcases exists_chain_of_run hs ht (by rw [h]; decide) with ⟨-, hf⟩ | ⟨z, y, hz, rfl, -, hn⟩
  · exact absurd h hf
  · obtain rfl := hn.resolve_right (not_not.2 h)
    simpa using hz

/-- The empty text has not failed either, so there must be an accepted word that it begins. -/
theorem fail_notMem_trace_iff (hs : Spells a kept) (ht : Tree a.edges State.final parts)
    (hk : kept ≠ []) :
    State.fail ∉ a.trace State.start text ↔ ∃ z, Chain kept parts z ∧ text <+: z := by
  rw [mem_trace]
  constructor
  · intro h
    have hrun : a.run State.start text ≠ State.fail := fun hf ↦ h ⟨text, List.prefix_refl _, hf⟩
    rcases exists_chain_of_run hs ht hrun with ⟨hb, -⟩ | ⟨z, y, hz, rfl, hb, -⟩
    · by_cases hnil : text = []
      · obtain ⟨u, hu⟩ := List.exists_mem_of_ne_nil kept hk
        exact ⟨u, .head hu, by simp [hnil]⟩
      · obtain ⟨u, hu, hp⟩ := hs.sound text _ hb hnil
        exact ⟨u, .head hu, hp⟩
    · by_cases hnil : y = []
      · exact ⟨z, hz, by simp [hnil]⟩
      · obtain ⟨p, hp, hpre⟩ := ht.sound y _ hb hnil
        exact ⟨z ++ p, hz.snoc hp, (List.prefix_append_right_inj z).2 hpre⟩
  · rintro ⟨z, hz, htext⟩ ⟨v, hv, hf⟩
    obtain ⟨x, rfl⟩ := hv.trans htext
    have hrun := run_chain hs ht hz
    rw [run_append, hf, run_fail hs.grown] at hrun
    exact absurd hrun (by decide)

end Automaton

namespace Automaton

variable {words : List Word}

theorem spells_ofWords (hw : ∀ w ∈ words, w ≠ []) : Spells (ofWords words) (accepted words) := by
  induction words using List.reverseRecOn with
  | nil => exact .empty
  | append_singleton words w ih =>
    rw [ofWords_concat, accepted_concat]
    exact (ih fun v hv ↦ hw v (List.mem_append_left _ hv)).insert (hw w (by simp))

theorem tree_ofWords (hw : ∀ w ∈ words, w ≠ []) :
    Tree (ofWords words).edges State.final (remainders (accepted words) words) := by
  induction words using List.reverseRecOn with
  | nil => exact .empty State.final
  | append_singleton words w ih =>
    have hinit (v : Word) (hv : v ∈ words) : v ≠ [] := hw v (List.mem_append_left _ hv)
    have ht : Tree (ofWords words).edges State.final
        (remainders (accepted words) (ofWords words).words) := by
      rw [words_ofWords]
      exact ih hinit
    have hmem (v : Word) (hv : v ∈ (ofWords words).words) :
        v ∈ accepted words ∨ HasRival (accepted words) v := by
      rw [words_ofWords] at hv
      exact mem_accepted_or_hasRival hv
    have hnext := ht.insert (spells_ofWords hinit) hmem (hw w (by simp))
    rwa [← ofWords_concat, words_ofWords, ← accepted_concat] at hnext

end Automaton

namespace Builder

/-- Words that have been refused are not accepted. -/
theorem accepted_words_after (events : List Event) :
    accepted (after events).automaton.words = accepted (offered events) := by
  induction events using List.reverseRecOn with
  | nil => rfl
  | append_singleton events e ih =>
    rw [after_concat, offered_concat]
    rcases act_cases (after events) e with ⟨w, he, hw, h⟩ | ⟨w, depth, he, hw, hd, h⟩ | ⟨he, h⟩
    · rw [h, he, Option.toList_some, accepted_concat, ← ih]
      exact accepted_concat _ w
    · rw [h, he, Option.toList_some, accepted_concat, ih,
        (holds_after events).tree.accept_of_conflict hw hd]
    · rw [h, he, ih, Option.toList_none, List.append_nil]

theorem accepted_ne_nil_after {events : List Event} (hne : (after events).automaton.words ≠ []) :
    accepted (offered events) ≠ [] := by
  rw [← accepted_words_after]
  exact accepted_ne_nil hne

theorem tree_after (events : List Event) : Tree (after events).automaton.edges State.final
    (remainders (accepted (offered events)) (after events).automaton.words) := by
  have h := tree_ofWords (ne_nil_of_mem_words_after events)
  rwa [← eq_ofWords_after, accepted_words_after] at h

/-- After any history that has taken a word, runs from the start end on the final state just behind
an accepted word and any number of remainders, and do not fail just along the beginnings of such
texts, as all words taken are. -/
theorem language_after (events : List Event) (hne : (after events).automaton.words ≠ []) :
    let a := (after events).automaton
    let kept := accepted (offered events)
    let parts := remainders kept a.words
    (PrefixFree kept ∧ PrefixFree parts ∧ ∀ w, w ∈ kept ∨ w ∈ parts → w ≠ []) ∧
    (∀ text, a.run State.start text = State.final ↔ Chain kept parts text) ∧
    (∀ text, State.fail ∉ a.trace State.start text ↔ ∃ z, Chain kept parts z ∧ text <+: z) ∧
    ∀ w ∈ a.words, State.fail ∉ a.trace State.start w := by
  intro a kept parts
  have hwords := ne_nil_of_mem_words_after events
  have hkept : accepted a.words = kept := accepted_words_after events
  have hs : Spells a kept := (holds_after events).tree
  have ht : Tree a.edges State.final parts := by
    have h := tree_ofWords hwords
    rwa [← eq_ofWords_after, hkept] at h
  have hne' : kept ≠ [] := hkept ▸ accepted_ne_nil hne
  have hfail (text : Word) :
      State.fail ∉ a.trace State.start text ↔ ∃ z, Chain kept parts z ∧ text <+: z :=
    fail_notMem_trace_iff hs ht hne'
  refine ⟨⟨hs.prefixFree, ht.prefixFree hs.grown, ?_⟩, fun text ↦ run_eq_final_iff hs ht,
    hfail, ?_⟩
  · rintro w (hw | hw)
    · exact hs.tree.ne_nil w hw
    · exact ht.ne_nil w hw
  · intro w hw
    exact (hfail w).2 (exists_chain_of_mem hs.prefixFree hw (hkept ▸ mem_accepted_or_hasRival hw))

theorem language_after_int :
    let events : List Event := [.offer (.text "in"), .offer (.text "int"), .offer (.text "inner")]
    let kept := accepted (offered events)
    let parts := remainders kept (after events).automaton.words
    (after events).automaton.words ≠ [] ∧ Chain kept parts "inttner".toList ∧
      ¬ ∃ z, Chain kept parts z ∧ "innt".toList <+: z := by
  intro events kept parts
  have hne : (after events).automaton.words ≠ [] := by decide
  obtain ⟨-, hfinal, hfail, -⟩ := language_after events hne
  refine ⟨hne, (hfinal _).1 (by decide), ?_⟩
  intro hz
  exact (hfail _).2 hz (by decide)

end Builder

end Recognizer
