import Mathlib.Data.List.Induction
import Recognizer.Automaton.Basic
/-!
Words that get in each other's way: of two of them one begins the other. Of a list of words those
are accepted, in order, that have no rival among the accepted ones. Main statement: no accepted
word begins another.
-/

namespace Recognizer

def ProperPrefix (v w : Word) : Prop := v <+: w ∧ v ≠ w

/-- One of the words begins `w` and is shorter, or goes on where `w` ends. -/
def HasRival (kept : List Word) (w : Word) : Prop :=
  ∃ v ∈ kept, ProperPrefix v w ∨ ProperPrefix w v

/-- The word gets in the way of a kept one, after so many of its symbols. -/
def Clashes (kept : List Word) (w : Word) (depth : Nat) : Prop :=
  (∃ v ∈ kept, ProperPrefix v w ∧ depth = v.length) ∨
    (∃ v ∈ kept, ProperPrefix w v) ∧ depth = w.length

/-- No word of the list begins another one. -/
def PrefixFree (kept : List Word) : Prop := ∀ v ∈ kept, ∀ w ∈ kept, v <+: w → v = w

instance (v w : Word) : Decidable (ProperPrefix v w) :=
  inferInstanceAs (Decidable (v <+: w ∧ v ≠ w))

instance (kept : List Word) (w : Word) : Decidable (HasRival kept w) :=
  inferInstanceAs (Decidable (∃ v ∈ kept, ProperPrefix v w ∨ ProperPrefix w v))

def accept (kept : List Word) (w : Word) : List Word :=
  if HasRival kept w then kept else kept ++ [w]

def accepted (words : List Word) : List Word := words.foldl accept []

theorem properPrefix_iff {v w : Word} : ProperPrefix v w ↔ ∃ x, x ≠ [] ∧ v ++ x = w := by
  constructor
  · intro h
    obtain ⟨⟨x, rfl⟩, hne⟩ := h
    refine ⟨x, ?_, rfl⟩
    simpa using hne
  · intro h
    obtain ⟨x, hx, rfl⟩ := h
    exact ⟨List.prefix_append v x, by simpa using hx⟩

theorem ProperPrefix.not_prefix {v w : Word} (h : ProperPrefix v w) : ¬ w <+: v :=
  fun h' ↦ h.2 (h.1.eq_of_length_le h'.length_le)

theorem mem_accept {kept : List Word} {v w : Word} :
    v ∈ accept kept w ↔ v ∈ kept ∨ v = w ∧ ¬ HasRival kept w := by
  unfold accept
  split <;> simp_all

theorem ProperPrefix.trans_prefix {u v w : Word} (h : ProperPrefix u v) (h' : v <+: w) :
    ProperPrefix u w := by
  refine ⟨h.1.trans h', ?_⟩
  intro he
  rw [he] at h
  exact h.not_prefix h'

theorem Clashes.hasRival {kept : List Word} {w : Word} {depth : Nat}
    (h : Clashes kept w depth) : HasRival kept w := by
  rcases h with ⟨v, hv, hp, -⟩ | ⟨⟨v, hv, hp⟩, -⟩
  · exact ⟨v, hv, .inl hp⟩
  · exact ⟨v, hv, .inr hp⟩

theorem exists_clashes {kept : List Word} {w : Word} (h : HasRival kept w) :
    ∃ depth, Clashes kept w depth := by
  obtain ⟨v, hv, hp | hp⟩ := h
  · exact ⟨v.length, .inl ⟨v, hv, hp, rfl⟩⟩
  · exact ⟨w.length, .inr ⟨⟨v, hv, hp⟩, rfl⟩⟩

namespace PrefixFree

variable {kept : List Word} {u v w : Word}

theorem eq_of_text (hf : PrefixFree kept) (hu : u ∈ kept) (hv : v ∈ kept) (h : u <+: w)
    (h' : v <+: w) : u = v := by
  rcases List.prefix_or_prefix_of_prefix h h' with hp | hp
  · exact hf u hu v hv hp
  · exact (hf v hv u hu hp).symm

theorem not_between (hf : PrefixFree kept) (hu : u ∈ kept) (hv : v ∈ kept)
    (h : ProperPrefix u w) : ¬ w <+: v := by
  intro h'
  obtain rfl := hf u hu v hv (h.1.trans h')
  exact h.not_prefix h'

theorem not_hasRival (hf : PrefixFree kept) (hw : w ∈ kept) : ¬ HasRival kept w := by
  intro hr
  obtain ⟨v, hv, ⟨h, hne⟩ | ⟨h, hne⟩⟩ := hr
  · exact hne (hf v hv w hw h)
  · exact hne (hf w hw v hv h)

theorem clashes_of_extends (hf : PrefixFree kept) (hu : u ∈ kept) (h : ProperPrefix u w)
    {depth : Nat} : Clashes kept w depth ↔ depth = u.length := by
  refine ⟨?_, fun hd ↦ .inl ⟨u, hu, h, hd⟩⟩
  intro hc
  rcases hc with ⟨v, hv, hp, hd⟩ | ⟨⟨v, hv, hp⟩, -⟩
  · rw [hd, hf.eq_of_text hu hv h.1 hp.1]
  · exact absurd hp.1 (hf.not_between hu hv h)

theorem clashes_of_begins (hf : PrefixFree kept) (hv : v ∈ kept) (h : ProperPrefix w v)
    {depth : Nat} : Clashes kept w depth ↔ depth = w.length := by
  refine ⟨?_, fun hd ↦ .inr ⟨⟨v, hv, h⟩, hd⟩⟩
  intro hc
  rcases hc with ⟨u, hu, hp, -⟩ | ⟨-, hd⟩
  · exact absurd h.1 (hf.not_between hu hv hp)
  · exact hd

theorem existsUnique_clashes (hf : PrefixFree kept) (h : HasRival kept w) :
    ∃! depth, Clashes kept w depth := by
  obtain ⟨v, hv, hp | hp⟩ := h
  · exact ⟨v.length, (hf.clashes_of_extends hv hp).2 rfl,
      fun _ hd ↦ (hf.clashes_of_extends hv hp).1 hd⟩
  · exact ⟨w.length, (hf.clashes_of_begins hv hp).2 rfl,
      fun _ hd ↦ (hf.clashes_of_begins hv hp).1 hd⟩

theorem accept (hf : PrefixFree kept) (w : Word) : PrefixFree (accept kept w) := by
  intro u hu v hv h
  rw [mem_accept] at hu hv
  rcases hu with hu | ⟨rfl, hr⟩
  · rcases hv with hv | ⟨rfl, hr⟩
    · exact hf u hu v hv h
    · by_contra hne
      exact hr ⟨u, hu, .inl ⟨h, hne⟩⟩
  · rcases hv with hv | ⟨rfl, -⟩
    · by_contra hne
      exact hr ⟨v, hv, .inr ⟨h, hne⟩⟩
    · rfl

end PrefixFree

theorem subset_accept (kept : List Word) (w : Word) : kept ⊆ accept kept w :=
  fun _ h ↦ mem_accept.2 (.inl h)

theorem HasRival.mono {kept more : List Word} {w : Word} (h : HasRival kept w)
    (hs : kept ⊆ more) : HasRival more w := by
  obtain ⟨v, hv, hr⟩ := h
  exact ⟨v, hs hv, hr⟩

@[simp] theorem accepted_nil : accepted [] = [] := rfl

theorem accepted_concat (words : List Word) (w : Word) :
    accepted (words ++ [w]) = accept (accepted words) w := by
  simp [accepted]

/-- What is not accepted has a rival, now and later. -/
theorem mem_accepted_or_hasRival {words : List Word} {w : Word} (hw : w ∈ words) :
    w ∈ accepted words ∨ HasRival (accepted words) w := by
  induction words using List.reverseRecOn with
  | nil => simp at hw
  | append_singleton words v ih =>
    rw [accepted_concat]
    rcases List.mem_append.1 hw with hw | hw
    · exact (ih hw).imp (fun h ↦ subset_accept _ v h) fun h ↦ h.mono (subset_accept _ v)
    · rw [List.mem_singleton.1 hw, mem_accept]
      by_cases hr : HasRival (accepted words) v
      · exact .inr (hr.mono (subset_accept _ v))
      · exact .inl (.inr ⟨rfl, hr⟩)

theorem accepted_ne_nil {words : List Word} (hw : words ≠ []) : accepted words ≠ [] := by
  obtain ⟨w, hw⟩ := List.exists_mem_of_ne_nil words hw
  rcases mem_accepted_or_hasRival hw with hk | ⟨v, hk, -⟩
  · exact List.ne_nil_of_mem hk
  · exact List.ne_nil_of_mem hk

theorem prefixFree_accepted (words : List Word) : PrefixFree (accepted words) := by
  induction words using List.reverseRecOn with
  | nil => simp [PrefixFree]
  | append_singleton words w ih =>
    rw [accepted_concat]
    exact ih.accept w

/-- All words are accepted if none begins another. -/
theorem accepted_of_prefixFree {words : List Word} (hf : PrefixFree words) :
    accepted words = words := by
  induction words using List.reverseRecOn with
  | nil => rfl
  | append_singleton words w ih =>
    have hmem {v : Word} (hv : v ∈ words) : v ∈ words ++ [w] := List.mem_append_left _ hv
    have hr : ¬ HasRival words w := by
      rintro ⟨v, hv, h | h⟩
      · exact h.2 (hf v (hmem hv) w (by simp) h.1)
      · exact h.2 (hf w (by simp) v (hmem hv) h.1)
    rw [accepted_concat, ih fun u hu v hv ↦ hf u (hmem hu) v (hmem hv), accept, if_neg hr]

example : accepted ["if".toList, "i".toList, "int".toList, "in".toList, "if".toList] =
    ["if".toList, "int".toList, "if".toList] := by decide

end Recognizer
