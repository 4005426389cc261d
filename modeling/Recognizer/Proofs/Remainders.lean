import Mathlib.Data.List.Basic
import Recognizer.Proofs.Accepted
/-!
What is left of words that run on behind an accepted one. Of what follows that word, the parts left
before are taken off the front for as long as one stands there; the rest is one more part. Main
statement: each such word begins a chain of an accepted word and parts.
-/

namespace Recognizer

/-- A part that the word begins with. -/
def front? (parts : List Word) (w : Word) : Option Word :=
  parts.find? fun p ↦ p ≠ [] ∧ p <+: w

theorem front?_eq_some {parts : List Word} {p w : Word} (h : front? parts w = some p) :
    p ∈ parts ∧ p ≠ [] ∧ p <+: w := by
  refine ⟨List.mem_of_find?_eq_some h, ?_⟩
  simpa using List.find?_some h

theorem front?_eq_none_iff {parts : List Word} {w : Word} :
    front? parts w = none ↔ ∀ p ∈ parts, p ≠ [] → ¬ p <+: w := by
  simp [front?]

/-- The word without the parts that it begins with, one after another. -/
def strip (parts : List Word) (w : Word) : Word :=
  match _h : front? parts w with
  | some p => strip parts (w.drop p.length)
  | none => w
termination_by w.length
decreasing_by
  obtain ⟨-, hne, hp⟩ := front?_eq_some _h
  have hpos := List.length_pos_iff.2 hne
  have hle := hp.length_le
  rw [List.length_drop]
  omega

/-- What is left of the word is one more part, unless it is nothing or begins a part. -/
def addPart (parts : List Word) (w : Word) : List Word :=
  if strip parts w = [] ∨ ∃ p ∈ parts, ProperPrefix (strip parts w) p then parts
  else parts ++ [strip parts w]

/-- What follows the kept word that the word extends. -/
def tail? (kept : List Word) (w : Word) : Option Word :=
  (kept.find? fun u ↦ ProperPrefix u w).map fun u ↦ w.drop u.length

def remainders (kept words : List Word) : List Word :=
  (words.filterMap (tail? kept)).foldl addPart []

/-- A kept word and any number of parts behind it. -/
inductive Chain (kept parts : List Word) : Word → Prop
  | head {u : Word} : u ∈ kept → Chain kept parts u
  | snoc {w p : Word} : Chain kept parts w → p ∈ parts → Chain kept parts (w ++ p)

variable {kept parts more words : List Word} {p u v w z : Word}

theorem Chain.mono (h : Chain kept parts w) (hs : parts ⊆ more) : Chain kept more w := by
  induction h with
  | head hu => exact .head hu
  | snoc _ hp ih => exact ih.snoc (hs hp)

section Strip

theorem strip_of_none (h : front? parts w = none) : strip parts w = w := by
  unfold strip
  split
  · next p hp => cases h.symm.trans hp
  · rfl

theorem strip_append (hf : PrefixFree parts) (hp : p ∈ parts) (hne : p ≠ []) :
    strip parts (p ++ w) = strip parts w := by
  have hpre : p <+: p ++ w := List.prefix_append p w
  rw [strip]
  split
  · next q hq =>
    obtain ⟨hm, -, hqw⟩ := front?_eq_some hq
    rw [hf.eq_of_text hm hp hqw hpre, List.drop_left]
  · next hnone => exact absurd hpre (front?_eq_none_iff.1 hnone p hp hne)

theorem exists_chain_strip (h : Chain kept parts z) (w : Word) :
    ∃ y, Chain kept parts y ∧ y ++ strip parts w = z ++ w := by
  fun_induction strip parts w generalizing z with
  | case1 w p hp ih =>
    obtain ⟨hm, -, x, rfl⟩ := front?_eq_some hp
    obtain ⟨y, hy, he⟩ := ih (h.snoc hm)
    exact ⟨y, hy, by rw [he, List.drop_left, List.append_assoc]⟩
  | case2 w => exact ⟨z, h, rfl⟩

theorem subset_addPart (parts : List Word) (w : Word) : parts ⊆ addPart parts w := by
  unfold addPart
  split
  · exact List.Subset.refl _
  · exact List.subset_append_left _ _

/-- Once its remainder is a part, a word can be read behind a chain. -/
theorem exists_chain_addPart (h : Chain kept parts z) (w : Word) :
    ∃ y, Chain kept (addPart parts w) y ∧ z ++ w <+: y := by
  obtain ⟨y, hy, he⟩ := exists_chain_strip h w
  have hm := hy.mono (subset_addPart parts w)
  rw [← he]
  by_cases hs : strip parts w = [] ∨ ∃ p ∈ parts, ProperPrefix (strip parts w) p
  · rcases hs with hs | ⟨p, hp, hs, -⟩
    · exact ⟨y, hm, by simp [hs]⟩
    · exact ⟨y ++ p, hm.snoc (subset_addPart parts w hp), (List.prefix_append_right_inj y).2 hs⟩
  · have hlast : strip parts w ∈ addPart parts w := by simp [addPart, hs]
    exact ⟨y ++ strip parts w, hm.snoc hlast, List.prefix_refl _⟩

end Strip

section Tail

theorem tail?_eq_some (h : tail? kept w = some v) : ∃ u ∈ kept, v ≠ [] ∧ u ++ v = w := by
  obtain ⟨u, hu, rfl⟩ := Option.map_eq_some_iff.1 h
  have hp : ProperPrefix u w := by simpa using List.find?_some hu
  obtain ⟨x, hx, rfl⟩ := properPrefix_iff.1 hp
  exact ⟨u, List.mem_of_find?_eq_some hu, by simpa using hx, by simp⟩

theorem tail?_eq_none_iff : tail? kept w = none ↔ ∀ u ∈ kept, ¬ ProperPrefix u w := by
  simp [tail?]

theorem tail?_append (hf : PrefixFree kept) (hu : u ∈ kept) (hv : v ≠ []) :
    tail? kept (u ++ v) = some v := by
  cases h : tail? kept (u ++ v) with
  | none => exact absurd (properPrefix_iff.2 ⟨v, hv, rfl⟩) (tail?_eq_none_iff.1 h u hu)
  | some x =>
    obtain ⟨t, ht, -, he⟩ := tail?_eq_some h
    obtain rfl := hf.eq_of_text ht hu ⟨x, he⟩ (List.prefix_append u v)
    rw [List.append_cancel_left he]

/-- A word that is kept, or has a rival there, runs on behind no word that is kept later. -/
theorem tail?_accept (hv : v ∈ kept ∨ HasRival kept v) (w : Word) :
    tail? (accept kept w) v = tail? kept v := by
  unfold accept
  split
  · rfl
  · next hr =>
    simp only [tail?, List.find?_append]
    cases h : kept.find? fun u ↦ ProperPrefix u v with
    | some u => simp
    | none =>
      have hnone : ∀ u ∈ kept, ¬ ProperPrefix u v := by simpa using h
      have hw : ¬ ProperPrefix w v := by
        intro hp
        rcases hv with hv | ⟨t, ht, hv | hv⟩
        · exact hr ⟨v, hv, .inr hp⟩
        · exact hnone t ht hv
        · exact hr ⟨t, ht, .inr (hp.trans_prefix hv.1)⟩
      simp [hw]

theorem tail?_accept_self (kept : List Word) (w : Word) :
    tail? (accept kept w) w = tail? kept w := by
  unfold accept
  split
  · rfl
  · simp [tail?, List.find?_append, ProperPrefix]

end Tail

section Remainders

theorem remainders_concat (kept words : List Word) (w : Word) : remainders kept (words ++ [w]) =
    (tail? kept w).elim (remainders kept words) (addPart (remainders kept words)) := by
  cases h : tail? kept w <;> simp [remainders, h]

theorem remainders_accept (hwords : ∀ v ∈ words, v ∈ kept ∨ HasRival kept v) (w : Word) :
    remainders (accept kept w) words = remainders kept words := by
  have htails : words.filterMap (tail? (accept kept w)) = words.filterMap (tail? kept) :=
    List.filterMap_congr fun v hv ↦ tail?_accept (hwords v hv) w
  rw [remainders, htails, remainders]

theorem remainders_subset_concat (kept words : List Word) (w : Word) :
    remainders kept words ⊆ remainders kept (words ++ [w]) := by
  rw [remainders_concat]
  cases tail? kept w with
  | none => exact List.Subset.refl _
  | some v => exact subset_addPart _ v

/-- A word that runs on behind a kept one begins a chain. -/
theorem exists_chain_of_tail? (hw : w ∈ words) (h : tail? kept w = some v) :
    ∃ y, Chain kept (remainders kept words) y ∧ w <+: y := by
  induction words using List.reverseRecOn with
  | nil => simp at hw
  | append_singleton words x ih =>
    rcases List.mem_append.1 hw with hw | hw
    · obtain ⟨y, hy, hwy⟩ := ih hw
      exact ⟨y, hy.mono (remainders_subset_concat kept words x), hwy⟩
    · obtain ⟨u, hu, -, rfl⟩ := tail?_eq_some h
      rw [List.mem_singleton] at hw
      rw [remainders_concat, ← hw, h]
      exact exists_chain_addPart (.head hu) v

theorem exists_chain_of_mem (hf : PrefixFree kept) (hw : w ∈ words)
    (hk : w ∈ kept ∨ HasRival kept w) :
    ∃ y, Chain kept (remainders kept words) y ∧ w <+: y := by
  rcases hk with hk | ⟨u, hu, hp | hp⟩
  · exact ⟨w, .head hk, List.prefix_refl w⟩
  · obtain ⟨v, hv, rfl⟩ := properPrefix_iff.1 hp
    exact exists_chain_of_tail? hw (tail?_append hf hu hv)
  · exact ⟨u, .head hu, hp.1⟩

theorem remainders_of_prefixFree (hf : PrefixFree words) : remainders words words = [] := by
  have htails : words.filterMap (tail? words) = [] := by
    rw [List.filterMap_eq_nil_iff]
    intro w hw
    exact tail?_eq_none_iff.2 fun u hu hp ↦ hp.2 (hf u hu w hw hp.1)
  rw [remainders, htails, List.foldl_nil]

end Remainders

end Recognizer
