import Recognizer.Proofs.Acceptance
import Recognizer.Proofs.Replay
import Recognizer.Proofs.Verdict
/-!
The same words for a strict builder and for a lenient one. They go the same way up to the first word
in conflict, which the one refuses and of which the other warns first. Main statement: this, and
that both recognize the same if the strict one is offered all words and passes over those that it
refuses.
-/

namespace Recognizer

namespace Builder

open Automaton

variable {b c : Builder} {v : Value} {w : Word} {values : List Value} {words : List Word}
  {notes : Notes}

theorem Holds.ofWords (hw : ∀ w ∈ words, w ≠ []) : Holds { automaton := ofWords words } words := by
  induction words using List.reverseRecOn with
  | nil => exact .empty
  | append_singleton words w ih =>
    rw [ofWords_concat]
    exact (ih fun v hv ↦ hw v (List.mem_append_left _ hv)).take (hw w (by simp))

theorem ne_nil_of_word (hv : values.map Value.word = words.map .ok) : ∀ w ∈ words, w ≠ [] := by
  intro w hw
  have hm : Except.ok w ∈ values.map Value.word := by
    rw [hv]
    exact List.mem_map_of_mem hw
  obtain ⟨v, -, hword⟩ := List.mem_map.1 hm
  exact Value.word_ne_nil hword

theorem offered_offers (hv : values.map Value.word = words.map .ok) :
    offered (values.map .offer) = words := by
  induction values generalizing words with
  | nil => simpa [offered] using hv.symm
  | cons v values ih =>
    cases words with
    | nil => simp at hv
    | cons w words =>
      obtain ⟨hword, hrest⟩ := List.cons_eq_cons.1 hv
      rw [List.map_cons, offered, List.filterMap_cons_some (word?_offer hword)]
      exact congrArg (w :: ·) (ih hrest)

theorem offerAll_of_ok (h : b.offer v = .ok (c, notes)) (values : List Value) :
    b.offerAll (v :: values) = (notes ++ (c.offerAll values).1, (c.offerAll values).2) := by
  rw [offerAll, h]

/-- Words that are taken only add to the conflicts. -/
theorem conflicts_foldl_insert (a : Automaton) (words : List Word) :
    a.conflicts <+: (words.foldl Automaton.insert a).conflicts := by
  induction words generalizing a with
  | nil => exact List.prefix_refl _
  | cons w words ih =>
    have hinsert : a.conflicts <+: (a.insert w).conflicts := by
      rw [Automaton.insert]
      split
      · exact List.prefix_append _ _
      · exact List.prefix_refl _
    exact hinsert.trans (ih (a.insert w))

/-- The strict builder ends where the lenient one does, which has met no conflict; or it stops at
the first word that conflicts, and the lenient one has warned of no other before. -/
theorem offerAll_strict (a : Automaton) (verbose : Bool)
    (hv : values.map Value.word = words.map .ok) :
    let strictly := ({ automaton := a, strict := true, verbose } : Builder).offerAll values
    let lenient := ({ automaton := a, verbose } : Builder).offerAll values
    let built := words.foldl Automaton.insert a
    (strictly.2 = .ok { automaton := built, strict := true, verbose } ∧
      built.conflicts = a.conflicts) ∨
    ∃ w depth more, strictly.2 = .error (.conflict w depth) ∧
      built.conflicts = a.conflicts ++ w :: more ∧
      lenient.1.warnings.head? = some (.conflict w depth) := by
  -- Up to the first conflict both have the same automaton, which the induction is over.
  induction values generalizing a words with
  | nil =>
    obtain rfl : words = [] := by simpa using hv.symm
    exact .inl ⟨rfl, rfl⟩
  | cons v values ih =>
    cases words with
    | nil => simp at hv
    | cons w words =>
      obtain ⟨hword, hrest⟩ := List.cons_eq_cons.1 hv
      have hlenient := offer_of_lenient (b := { automaton := a, verbose }) hword rfl
      cases hd : a.conflictDepth? w with
      | none =>
        have hstrict := offer_of_none (b := { automaton := a, strict := true, verbose }) hword hd
        have hsilent : (({ automaton := a, verbose } : Builder).notes w).warnings = [] := by
          simp [notes, hd]
        have hconflicts : (a.insert w).conflicts = a.conflicts := by simp [Automaton.insert, hd]
        simp only [offerAll_of_ok hstrict, offerAll_of_ok hlenient, Notes.warnings_append, hsilent,
          List.nil_append, List.foldl_cons, ← hconflicts]
        exact ih (a.insert w) hrest
      | some depth =>
        have hstrict :=
          offer_of_strict (b := { automaton := a, strict := true, verbose }) hword hd rfl
        have hwarned : (({ automaton := a, verbose } : Builder).notes w).warnings =
            [.conflict w depth] := by
          simp [notes, hd]
        have hconflicts : (a.insert w).conflicts = a.conflicts ++ [w] := by
          simp [Automaton.insert, hd]
        obtain ⟨more, hmore⟩ := conflicts_foldl_insert (a.insert w) words
        refine .inr ⟨w, depth, more, ?_, ?_, ?_⟩
        · rw [offerAll, hstrict]
        · rw [List.foldl_cons, ← hmore, hconflicts, List.append_assoc, List.singleton_append]
        · rw [offerAll_of_ok hlenient, Notes.warnings_append, hwarned]
          rfl

/-- What the automaton of a lenient builder matches is a matter of the words offered, and a strict
builder that passes over refused words matches the same. -/
theorem firstMatch_iff_of_offers (strict verbose : Bool)
    (hv : values.map Value.word = words.map .ok) (text w : Word) :
    (after (.setStrict strict :: .setVerbose verbose :: values.map .offer)).automaton.FirstMatch
      text w ↔ (ofWords words).FirstMatch text w := by
  have hoffered : offered (.setStrict strict :: .setVerbose verbose :: values.map .offer) = words :=
    offered_offers hv
  have hs := (holds_after (.setStrict strict :: .setVerbose verbose :: values.map .offer)).tree
  rw [hoffered] at hs
  rw [hs.firstMatch_iff, (Holds.ofWords (ne_nil_of_word hv)).tree.firstMatch_iff]

/-- A strict builder takes all words just if the lenient one meets no conflict, which is if no word
begins another, and makes the same automaton of them. Otherwise it refuses the first word in
conflict, as the first warning tells it. If it passes over the words that it refuses, each text has
the same first match in both, or in neither. -/
theorem strict_agrees (verbose : Bool) (hv : values.map Value.word = words.map .ok) :
    let strictly := ({ strict := true, verbose } : Builder).offerAll values
    let passing := after (.setStrict true :: .setVerbose verbose :: values.map .offer)
    ∃ notes built, ({ verbose } : Builder).offerAll values = (notes, .ok built) ∧
      ((∃ b, strictly.2 = .ok b) ↔ built.automaton.conflicts = []) ∧
      (built.automaton.conflicts = [] ↔ ∀ v ∈ words, ∀ w ∈ words, ¬ ProperPrefix v w) ∧
      (∀ b, strictly.2 = .ok b → b.automaton = built.automaton) ∧
      (∀ refusal, strictly.2 = .error refusal → ∃ w depth, refusal = .conflict w depth ∧
        built.automaton.conflicts.head? = some w ∧
        notes.warnings.head? = some (.conflict w depth)) ∧
      ∀ text,
        (∀ w, passing.automaton.FirstMatch text w ↔ built.automaton.FirstMatch text w) ∧
        ((∀ v, v <+: text → passing.automaton.run State.start v ≠ State.final) ↔
          ∀ v, v <+: text → built.automaton.run State.start v ≠ State.final) := by
  intro strictly passing
  have hlenient := offerAll_of_lenient (b := { verbose }) rfl hv
  have hholds := Holds.ofWords (ne_nil_of_word hv)
  have hfree : (ofWords words).conflicts = [] ↔ ∀ v ∈ words, ∀ w ∈ words, ¬ ProperPrefix v w := by
    simpa only [words_ofWords] using hholds.conflicts_eq_nil_iff
  have hmatch (text w : Word) :
      passing.automaton.FirstMatch text w ↔ (ofWords words).FirstMatch text w :=
    firstMatch_iff_of_offers true verbose hv text w
  have hnever (text : Word) :
      (∀ v, v <+: text → passing.automaton.run State.start v ≠ State.final) ↔
        ∀ v, v <+: text → (ofWords words).run State.start v ≠ State.final := by
    simp only [forall_run_ne_final_iff, hmatch]
  refine ⟨_, _, Prod.ext rfl hlenient, ?_⟩
  rcases offerAll_strict .empty verbose hv with
    ⟨hok, hnone⟩ | ⟨w, depth, more, herror, hmore, hfirst⟩
  · refine ⟨⟨fun _ ↦ hnone, fun _ ↦ ⟨_, hok⟩⟩, hfree, ?_, ?_, fun text ↦ ⟨hmatch text, hnever text⟩⟩
    · intro b hb
      obtain rfl := Except.ok.inj (hok.symm.trans hb)
      rfl
    · intro refusal hr
      exact absurd (hok.symm.trans hr) nofun
  · have hconflict : (ofWords words).conflicts = w :: more := hmore
    refine ⟨⟨?_, ?_⟩, hfree, ?_, ?_, fun text ↦ ⟨hmatch text, hnever text⟩⟩
    · rintro ⟨b, hb⟩
      exact absurd (herror.symm.trans hb) nofun
    · intro hnone
      exact absurd (hconflict.symm.trans hnone) nofun
    · intro b hb
      exact absurd (herror.symm.trans hb) nofun
    · intro refusal hr
      obtain rfl := Except.error.inj (herror.symm.trans hr)
      exact ⟨w, depth, rfl, congrArg List.head? hconflict, hfirst⟩

theorem strict_agrees_int :
    let values : List Value := [.text "in", .list [.text "i", .text "n", .text "t"], .text "if",
      .text "i"]
    let words : List Word := ["in".toList, "int".toList, "if".toList, "i".toList]
    values.map Value.word = words.map .ok ∧
      (({ strict := true } : Builder).offerAll values).2 = .error (.conflict "int".toList 2) ∧
      ∃ notes built, ({} : Builder).offerAll values = (notes, .ok built) ∧
        built.automaton.conflicts.head? = some "int".toList ∧
        notes.warnings.head? = some (.conflict "int".toList 2) := by
  intro values words
  have hv : values.map Value.word = words.map .ok := rfl
  have hrefused : (({ strict := true } : Builder).offerAll values).2 =
      .error (.conflict "int".toList 2) := rfl
  obtain ⟨notes, built, hbuilt, -, -, -, hfirst, -⟩ := strict_agrees false hv
  obtain ⟨w, depth, hr, hw, hdepth⟩ := hfirst _ hrefused
  obtain ⟨rfl, rfl⟩ := Refusal.conflict.inj hr
  exact ⟨hv, hrefused, notes, built, hbuilt, hw, hdepth⟩

end Builder

end Recognizer
