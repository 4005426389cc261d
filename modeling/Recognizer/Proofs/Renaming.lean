import Mathlib.Data.Finset.Card
import Mathlib.Data.Set.Function
import Recognizer.Proofs.Language
import Recognizer.Proofs.Representation
/-!
Automata that differ in the names of states only. Where no word begins another, the same words make
the same automaton up to such names, in whatever order and however often they are inserted: a state
goes by the branch that it lies on.
-/

namespace Recognizer

open Automaton

def Edge.rename (f : State → State) (e : Edge) : Edge := ⟨f e.source, e.symbol, f e.destination⟩

namespace Automaton

/-- New names for the states of the one that carry its edges onto those of the other. -/
structure Renaming (a b : Automaton) (f : State → State) : Prop where
  bijOn : Set.BijOn f {q | q ∈ a.states} {q | q ∈ b.states}
  start : f State.start = State.start
  final : f State.final = State.final
  fail : f State.fail = State.fail
  edges : ∀ e, e ∈ b.edges ↔ ∃ d ∈ a.edges, d.rename f = e

namespace Renaming

variable {a b : Automaton} {f : State → State} {q : State}

theorem size_eq (h : Renaming a b f) : a.size = b.size := by
  have hset (a : Automaton) : {q | q ∈ a.states} = (Finset.range a.size : Set State) := by
    ext q
    simp [mem_states]
  have hbij := h.bijOn
  rw [hset, hset] at hbij
  simpa using hbij.finsetCard_eq f

theorem eq_of_rename (h : Renaming a b f) (hg : Grown a.size a.edges) {d e : Edge}
    (hd : d ∈ a.edges) (he : e ∈ a.edges) (hde : d.rename f = e.rename f) : d = e := by
  rw [Edge.rename, Edge.rename, Edge.mk.injEq] at hde
  have hs : d.source = e.source := h.bijOn.injOn (mem_states.2 (hg.source_lt hd))
    (mem_states.2 (hg.source_lt he)) hde.1
  exact hg.eq_of_key hd he hs hde.2.1

theorem perm_edges (h : Renaming a b f) (ha : Grown a.size a.edges) (hb : Grown b.size b.edges) :
    (a.edges.map (·.rename f)).Perm b.edges := by
  have hnodup : (a.edges.map (·.rename f)).Nodup :=
    (nodup_edges ha).map_on fun d hd e he hde ↦ h.eq_of_rename ha hd he hde
  rw [List.perm_ext_iff_of_nodup hnodup (nodup_edges hb)]
  intro e
  rw [List.mem_map, h.edges]

theorem length_edges (h : Renaming a b f) (ha : Grown a.size a.edges)
    (hb : Grown b.size b.edges) : a.edges.length = b.edges.length := by
  simpa using (h.perm_edges ha hb).length_eq

theorem step (h : Renaming a b f) (ha : Grown a.size a.edges) (hb : Grown b.size b.edges)
    (hq : q ∈ a.states) (c : Char) : b.step (f q) c = f (a.step q c) := by
  by_cases hfail : a.step q c = State.fail
  · rw [hfail, h.fail]
    by_contra hstep
    obtain ⟨d, hd, hde⟩ := (h.edges _).1 (edge_of_step rfl hstep)
    rw [Edge.rename, Edge.mk.injEq] at hde
    have hsource : d.source = q := h.bijOn.injOn (mem_states.2 (ha.source_lt hd)) hq hde.1
    have hnext : a.step q c = d.destination := by
      rw [← hsource, ← hde.2.1]
      exact step_of_edge ha hd
    exact ha.destination_ne_fail hd (hnext.symm.trans hfail)
  · have hedge := edge_of_step rfl hfail
    exact step_of_edge hb ((h.edges _).2 ⟨_, hedge, rfl⟩)

theorem trace (h : Renaming a b f) (ha : Grown a.size a.edges) (hb : Grown b.size b.edges)
    (hq : q ∈ a.states) (w : Word) : b.trace (f q) w = (a.trace q w).map f := by
  induction w generalizing q with
  | nil => rfl
  | cons c w ih =>
    rw [Automaton.trace, Automaton.trace, List.map_cons, h.step ha hb hq,
      ih (step_mem_states ha q c)]

end Renaming

/-- A tree of the words at the start, and none at the final state. -/
structure Trie (a : Automaton) (words : List Word) : Prop where
  spells : Spells a words
  ends : Tree a.edges State.final []

/-- States at the end of the same branch of the start, or both final or both failing. -/
def Twin (a b : Automaton) (p q : State) : Prop :=
  (p = State.final ∧ q = State.final) ∨ (p = State.fail ∧ q = State.fail) ∨
    ∃ w, Branch a.edges State.start w p ∧ Branch b.edges State.start w q

namespace Trie

variable {a b : Automaton} {words more : List Word} {p p' q q' : State} {w : Word} {c : Char}

theorem ofWords (hw : ∀ w ∈ words, w ≠ []) (hf : PrefixFree words) :
    Trie (Automaton.ofWords words) words := by
  have hs := spells_ofWords hw
  have ht := tree_ofWords hw
  rw [accepted_of_prefixFree hf] at hs ht
  rw [remainders_of_prefixFree hf] at ht
  exact ⟨hs, ht⟩

theorem of_same_words (h : Trie a words) (hm : ∀ w, w ∈ more ↔ w ∈ words) : Trie a more :=
  ⟨h.spells.of_same_edges h.spells.grown rfl hm, h.ends⟩

theorem source_ne_final (h : Trie a words) {e : Edge} (he : e ∈ a.edges) :
    e.source ≠ State.final := by
  intro hs
  have hroot : Branch a.edges State.final [] e.source := Branch.nil_iff.2 ⟨hs, .inr rfl⟩
  obtain ⟨w, hw, -⟩ := h.ends.sound _ _ (hroot.snoc (.inl rfl) he) (by simp)
  simp at hw

theorem exists_branch_iff (h : Trie a words) (hw : w ≠ []) :
    (∃ q, Branch a.edges State.start w q) ↔ ∃ v ∈ words, w <+: v := by
  constructor
  · rintro ⟨q, hq⟩
    exact h.spells.sound w q hq hw
  · rintro ⟨v, hv, x, rfl⟩
    obtain ⟨q, hq, -⟩ := (h.spells.complete _ hv).exists_of_append
    exact ⟨q, hq⟩

/-- Both tries have the same branches. -/
theorem exists_branch (ha : Trie a words) (hb : Trie b words) (h : Branch a.edges State.start w p) :
    ∃ q, Branch b.edges State.start w q := by
  by_cases hw : w = []
  · exact ⟨State.start, hw ▸ .root (.inl rfl)⟩
  · exact (hb.exists_branch_iff hw).2 ((ha.exists_branch_iff hw).1 ⟨p, h⟩)

theorem eq_final_iff (ha : Trie a words) (hb : Trie b words) (h : Branch a.edges State.start w p)
    (h' : Branch b.edges State.start w q) : p = State.final ↔ q = State.final := by
  constructor
  · rintro rfl
    exact h'.functional hb.spells.grown (hb.spells.complete w (ha.spells.branch_final_iff.1 h))
  · rintro rfl
    exact h.functional ha.spells.grown (ha.spells.complete w (hb.spells.branch_final_iff.1 h'))

end Trie

namespace Twin

variable {a b : Automaton} {words : List Word} {p q q' : State} {e : Edge}

theorem symm (h : Twin a b p q) : Twin b a q p := by
  rcases h with ⟨hp, hq⟩ | ⟨hp, hq⟩ | ⟨w, hp, hq⟩
  · exact .inl ⟨hq, hp⟩
  · exact .inr (.inl ⟨hq, hp⟩)
  · exact .inr (.inr ⟨w, hq, hp⟩)

theorem start : Twin a b State.start State.start :=
  .inr (.inr ⟨[], .root (.inl rfl), .root (.inl rfl)⟩)

theorem final_iff (ha : Trie a words) (hb : Trie b words) (h : Twin a b p q) :
    p = State.final ↔ q = State.final := by
  rcases h with ⟨rfl, rfl⟩ | ⟨rfl, rfl⟩ | ⟨w, hp, hq⟩
  · simp
  · simp
  · exact ha.eq_final_iff hb hp hq

theorem fail_iff (ha : Trie a words) (hb : Trie b words) (h : Twin a b p q) :
    p = State.fail ↔ q = State.fail := by
  rcases h with ⟨rfl, rfl⟩ | ⟨rfl, rfl⟩ | ⟨w, hp, hq⟩
  · simp
  · simp
  · simp [hp.ne_fail ha.spells.grown, hq.ne_fail hb.spells.grown]

/-- A state has one twin only: but for the final and the failing state, it lies on one branch. -/
theorem functional (ha : Trie a words) (hb : Trie b words) (h : Twin a b p q)
    (h' : Twin a b p q') : q = q' := by
  have hfinal := (h.final_iff ha hb).symm.trans (h'.final_iff ha hb)
  have hfail := (h.fail_iff ha hb).symm.trans (h'.fail_iff ha hb)
  rcases h with ⟨-, rfl⟩ | ⟨-, rfl⟩ | ⟨w, hp, hq⟩
  · exact (hfinal.1 rfl).symm
  · exact (hfail.1 rfl).symm
  · rcases h' with ⟨-, rfl⟩ | ⟨-, rfl⟩ | ⟨w', hp', hq'⟩
    · exact hfinal.2 rfl
    · exact hfail.2 rfl
    · by_cases hpf : p = State.final
      · rw [(ha.eq_final_iff hb hp hq).1 hpf, (ha.eq_final_iff hb hp' hq').1 hpf]
      · obtain ⟨-, rfl⟩ := hp.unique ha.spells.grown hp' hpf
        exact hq.functional hb.spells.grown hq'

theorem exists_of_mem_states (ha : Trie a words) (hb : Trie b words) (hp : p ∈ a.states) :
    ∃ q, q ∈ b.states ∧ Twin a b p q := by
  have h3 := hb.spells.grown.three_le
  by_cases hfail : p = State.fail
  · exact ⟨State.fail, mem_states.2 (by lia), .inr (.inl ⟨hfail, rfl⟩)⟩
  · obtain ⟨r, w, hw, -⟩ := ha.spells.grown.exists_branch (mem_states.1 hp) hfail
    by_cases hfinal : p = State.final
    · exact ⟨State.final, mem_states.2 (by lia), .inl ⟨hfinal, rfl⟩⟩
    · have hroot : r = State.start := by
        refine hw.root_eq.resolve_right ?_
        rintro rfl
        have hnil : w ≠ [] := by
          rintro rfl
          exact hfinal (Branch.nil_iff.1 hw).1
        obtain ⟨v, hv, -⟩ := ha.ends.sound w p hw hnil
        simp at hv
      rw [hroot] at hw
      obtain ⟨q, hq⟩ := ha.exists_branch hb hw
      exact ⟨q, mem_states.2 (hq.lt hb.spells.grown), .inr (.inr ⟨w, hw, hq⟩)⟩

/-- Twins have the same edges, and these lead to twins. -/
theorem exists_edge (ha : Trie a words) (hb : Trie b words) (he : e ∈ a.edges)
    (h : Twin a b e.source p) : ∃ q, Twin a b e.destination q ∧ ⟨p, e.symbol, q⟩ ∈ b.edges := by
  have hsource := ha.source_ne_final he
  rcases h with ⟨hs, -⟩ | ⟨hs, -⟩ | ⟨w, hs, hp⟩
  · exact absurd hs hsource
  · exact absurd hs (ha.spells.grown.source_ne_fail he)
  · have hnext := hs.snoc (.inr hsource) he
    obtain ⟨q, hq⟩ := ha.exists_branch hb hnext
    obtain ⟨o, ho, -, hedge⟩ := Branch.concat_iff.1 hq
    obtain rfl := hp.functional hb.spells.grown ho
    exact ⟨q, .inr (.inr ⟨_, hnext, hq⟩), hedge⟩

section Rename

variable {f : State → State} (ha : Trie a words) (hb : Trie b words)
  (hf : ∀ p ∈ a.states, f p ∈ b.states ∧ Twin a b p (f p))

include ha hb hf

theorem apply_eq (hp : p ∈ a.states) (h : Twin a b p q) : f p = q :=
  (hf p hp).2.functional ha hb h

theorem bijOn : Set.BijOn f {q | q ∈ a.states} {q | q ∈ b.states} := by
  refine ⟨fun p hp ↦ (hf p hp).1, ?_, ?_⟩
  · intro p hp q hq hpq
    have hback := (hf p hp).2.symm
    rw [hpq] at hback
    exact hback.functional hb ha (hf q hq).2.symm
  · intro q hq
    obtain ⟨p, hp, h⟩ := exists_of_mem_states hb ha hq
    exact ⟨p, hp, apply_eq ha hb hf hp h.symm⟩

theorem mem_edges_iff : e ∈ b.edges ↔ ∃ d ∈ a.edges, d.rename f = e := by
  have hsource {d : Edge} (hd : d ∈ a.edges) : d.source ∈ a.states :=
    mem_states.2 (ha.spells.grown.source_lt hd)
  have hdestination {d : Edge} (hd : d ∈ a.edges) : d.destination ∈ a.states :=
    mem_states.2 (ha.spells.grown.destination_lt hd)
  constructor
  · intro he
    obtain ⟨p, hp, h⟩ := exists_of_mem_states hb ha (mem_states.2 (hb.spells.grown.source_lt he))
    obtain ⟨q, hq, hedge⟩ := h.exists_edge hb ha he
    refine ⟨_, hedge, ?_⟩
    rw [Edge.rename, apply_eq ha hb hf hp h.symm,
      apply_eq ha hb hf (hdestination hedge) hq.symm]
  · rintro ⟨d, hd, rfl⟩
    obtain ⟨q, hq, hedge⟩ := (hf _ (hsource hd)).2.exists_edge ha hb hd
    rwa [Edge.rename, apply_eq ha hb hf (hdestination hd) hq]

end Rename

end Twin

theorem Trie.exists_renaming {a b : Automaton} {words : List Word} (ha : Trie a words)
    (hb : Trie b words) : ∃ f, Renaming a b f := by
  have htotal (p : State) (hp : p ∈ a.states) : ∃ q, q ∈ b.states ∧ Twin a b p q :=
    Twin.exists_of_mem_states ha hb hp
  choose! f hmem htwin using htotal
  have hf (p : State) (hp : p ∈ a.states) : f p ∈ b.states ∧ Twin a b p (f p) :=
    ⟨hmem p hp, htwin p hp⟩
  have hlt {k : Nat} (hk : k < 3) : k ∈ a.states :=
    mem_states.2 (Nat.lt_of_lt_of_le hk ha.spells.grown.three_le)
  exact ⟨f, {
    bijOn := Twin.bijOn ha hb hf
    start := Twin.apply_eq ha hb hf (hlt (by decide)) .start
    final := Twin.apply_eq ha hb hf (hlt (by decide)) (.inl ⟨rfl, rfl⟩)
    fail := Twin.apply_eq ha hb hf (hlt (by decide)) (.inr (.inl ⟨rfl, rfl⟩))
    edges := fun _ ↦ Twin.mem_edges_iff ha hb hf }⟩

end Automaton

namespace Builder

/-- Two lists of the same words, none of which begins another, make automata that differ in the
names of states only, and runs of any text through both keep in step. -/
theorem renaming_of_same_words {values values' : List Value} {words words' : List Word}
    (hv : values.map Value.word = words.map .ok) (hv' : values'.map Value.word = words'.map .ok)
    (hsame : ∀ w, w ∈ words ↔ w ∈ words') (hf : PrefixFree words) :
    ∃ notes notes' b b' f, ({} : Builder).offerAll values = (notes, .ok b) ∧
      ({} : Builder).offerAll values' = (notes', .ok b') ∧
      b.automaton.states.length = b'.automaton.states.length ∧
      b.automaton.edges.length = b'.automaton.edges.length ∧
      b.automaton.Renaming b'.automaton f ∧
      ∀ text, b'.automaton.trace State.start text = (b.automaton.trace State.start text).map f := by
  have hne {values : List Value} {words : List Word} (hv : values.map Value.word = words.map .ok)
      (w : Word) (hw : w ∈ words) : w ≠ [] := by
    have hm : Except.ok w ∈ values.map Value.word := by
      rw [hv]
      exact List.mem_map_of_mem hw
    obtain ⟨v, -, hword⟩ := List.mem_map.1 hm
    exact Value.word_ne_nil hword
  have hf' : PrefixFree words' := fun v hv w hw ↦ hf v ((hsame v).2 hv) w ((hsame w).2 hw)
  have ht := Trie.ofWords (hne hv) hf
  have ht' := (Trie.ofWords (hne hv') hf').of_same_words hsame
  obtain ⟨f, hren⟩ := ht.exists_renaming ht'
  have hg := ht.spells.grown
  have hg' := ht'.spells.grown
  have hstart : State.start ∈ (ofWords words).states :=
    mem_states.2 (Nat.lt_of_lt_of_le (by decide) hg.three_le)
  refine ⟨_, _, _, _, f, Prod.ext rfl (offerAll_of_lenient rfl hv),
    Prod.ext rfl (offerAll_of_lenient rfl hv'), ?_, hren.length_edges hg hg', hren, ?_⟩
  · simpa [states, ofWords] using hren.size_eq
  · intro text
    have htrace := hren.trace hg hg' hstart text
    rwa [hren.start] at htrace

theorem renaming_of_same_words_shuffled :
    let values : List Value := [.text "if", .list [.text "i", .text "n"], .text "for"]
    let values' : List Value := [.text "for", .text "in", .text "if", .text "in"]
    let words : List Word := ["if".toList, "in".toList, "for".toList]
    let words' : List Word := ["for".toList, "in".toList, "if".toList, "in".toList]
    values.map Value.word = words.map .ok ∧ values'.map Value.word = words'.map .ok ∧
      (∀ w, w ∈ words ↔ w ∈ words') ∧ PrefixFree words ∧
      ∃ notes notes' b b' f, ({} : Builder).offerAll values = (notes, .ok b) ∧
        ({} : Builder).offerAll values' = (notes', .ok b') ∧
        b.automaton.Renaming b'.automaton f := by
  intro values values' words words'
  have hv : values.map Value.word = words.map .ok := rfl
  have hv' : values'.map Value.word = words'.map .ok := rfl
  have hsame (w : Word) : w ∈ words ↔ w ∈ words' := by
    simp only [words, words', List.mem_cons, List.not_mem_nil]
    tauto
  have hf : PrefixFree words := by
    unfold PrefixFree
    decide
  obtain ⟨notes, notes', b, b', f, hb, hb', -, -, hren, -⟩ :=
    renaming_of_same_words hv hv' hsame hf
  exact ⟨hv, hv', hsame, hf, notes, notes', b, b', f, hb, hb', hren⟩

end Builder

end Recognizer
