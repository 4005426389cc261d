import Recognizer.Builder
import Recognizer.Proofs.Insertion
/-!
Builders after any history of offers, taken or refused, with the flags set at will in between.
Main statement: whatever the history, the start is the root of a tree of the accepted words, and
the words taken are those and the conflicts.
-/

namespace Recognizer

theorem Value.symbols_ne_nil {values : List Value} {w : Word} (h : symbols values = .ok w)
    (hv : values ≠ []) : w ≠ [] := by
  cases values with
  | nil => exact absurd rfl hv
  | cons v values =>
    rw [symbols] at h
    cases hc : v.char? with
    | none => simp [hc] at h
    | some c =>
      cases hs : symbols values with
      | error _ => simp [hc, hs, Except.map] at h
      | ok u =>
        obtain rfl : c :: u = w := by simpa [hc, hs, Except.map] using h
        simp

theorem Value.word_ne_nil {v : Value} {w : Word} (h : v.word = .ok w) : w ≠ [] := by
  cases v with
  | text s =>
    rw [word] at h
    split at h
    · cases h
    · next hs => cases h; exact hs
  | list values =>
    cases values with
    | nil => cases h
    | cons v values =>
      rw [word] at h
      cases hs : symbols (v :: values) with
      | error _ => simp [hs, Except.mapError] at h
      | ok u =>
        obtain rfl : u = w := by simpa [hs, Except.mapError] using h
        exact symbols_ne_nil hs (by simp)
      simp
  | number _ => cases h
  | truth _ => cases h
  | nothing => cases h

namespace Builder

inductive Event
  | offer (v : Value)
  | setStrict (strict : Bool)
  | setVerbose (verbose : Bool)

/-- The word offered, if it is one; whether it is taken is not asked. -/
def Event.word? : Event → Option Word
  | .offer v => v.word.toOption
  | _ => none

/-- A refused offer leaves the builder as it was. -/
def act (b : Builder) : Event → Builder
  | .offer v => match b.offer v with
    | .ok (taken, _) => taken
    | .error _ => b
  | .setStrict strict => { b with strict := strict }
  | .setVerbose verbose => { b with verbose := verbose }

def after (events : List Event) : Builder := events.foldl act {}

def offered (events : List Event) : List Word := events.filterMap Event.word?

/-- No word of the history has been refused. -/
def Unrefused (events : List Event) : Prop :=
  ∀ past v, past ++ [.offer v] <+: events →
    ∀ w depth, (after past).offer v ≠ .error (.conflict w depth)

theorem after_concat (events : List Event) (e : Event) :
    after (events ++ [e]) = (after events).act e := by
  simp [after]

theorem offered_concat (events : List Event) (e : Event) :
    offered (events ++ [e]) = offered events ++ e.word?.toList := by
  cases h : e.word? <;> simp [offered, h]

section Offer

variable {b : Builder} {v : Value} {w : Word} {depth : Nat}

theorem offer_of_error {r : Refusal} (hv : v.word = .error r) : b.offer v = .error r := by
  rw [offer, hv]
  rfl

theorem offer_of_none (hv : v.word = .ok w) (h : b.automaton.conflictDepth? w = none) :
    b.offer v = .ok (b.take w, b.notes w) := by
  rw [offer, hv]
  simp [Except.bind, offerWord, h]

theorem offer_of_strict (hv : v.word = .ok w) (h : b.automaton.conflictDepth? w = some depth)
    (hs : b.strict = true) : b.offer v = .error (.conflict w depth) := by
  rw [offer, hv]
  simp [Except.bind, offerWord, h, hs]

theorem offer_of_lenient (hv : v.word = .ok w) (hs : b.strict = false) :
    b.offer v = .ok (b.take w, b.notes w) := by
  rw [offer, hv]
  simp [Except.bind, offerWord, hs]

theorem offer_eq_ok {taken : Builder} {notes : Notes}
    (h : b.offer v = .ok (taken, notes)) :
    ∃ w, v.word = .ok w ∧ taken = b.take w ∧ notes = b.notes w := by
  cases hv : v.word with
  | error r =>
    rw [offer_of_error hv] at h
    cases h
  | ok w =>
    refine ⟨w, rfl, ?_⟩
    rw [offer, hv] at h
    change b.offerWord w = _ at h
    unfold offerWord at h
    split at h
    · cases h
    · cases h
      exact ⟨rfl, rfl⟩

/-- An offer of a word either takes it, or refuses it for a conflict and changes nothing. -/
theorem act_offer (hv : v.word = .ok w) :
    b.act (.offer v) = b.take w ∨
      ∃ depth, b.offer v = .error (.conflict w depth) ∧
        b.automaton.conflictDepth? w = some depth ∧ b.act (.offer v) = b := by
  cases h : b.automaton.conflictDepth? w with
  | none => exact .inl (by rw [act, offer_of_none hv h])
  | some depth =>
    cases hs : b.strict with
    | true =>
      have hr := offer_of_strict hv h hs
      exact .inr ⟨depth, hr, rfl, by rw [act, hr]⟩
    | false => exact .inl (by rw [act, offer_of_lenient hv hs])

theorem word?_offer (hv : v.word = .ok w) : (Event.offer v).word? = some w := by
  simp [Event.word?, hv, Except.toOption]

/-- An event takes a word, refuses one for a conflict, or offers none. -/
theorem act_cases (b : Builder) (e : Event) :
    (∃ w, e.word? = some w ∧ w ≠ [] ∧ (b.act e).automaton = b.automaton.insert w) ∨
    (∃ w depth, e.word? = some w ∧ w ≠ [] ∧ b.automaton.conflictDepth? w = some depth ∧
      (b.act e).automaton = b.automaton) ∨
    (e.word? = none ∧ (b.act e).automaton = b.automaton) := by
  cases e with
  | setStrict strict => exact .inr (.inr ⟨rfl, rfl⟩)
  | setVerbose verbose => exact .inr (.inr ⟨rfl, rfl⟩)
  | offer v =>
    cases hv : v.word with
    | error r =>
      refine .inr (.inr ⟨?_, by rw [act, offer_of_error hv]⟩)
      simp [Event.word?, hv, Except.toOption]
    | ok w =>
      have hw := Value.word_ne_nil hv
      rcases act_offer (b := b) hv with ht | ⟨depth, -, hd, hb⟩
      · exact .inl ⟨w, word?_offer hv, hw, by rw [ht]; rfl⟩
      · exact .inr (.inl ⟨w, depth, word?_offer hv, hw, hd, by rw [hb]⟩)

end Offer

/-- What every insertion keeps holds after any history. -/
theorem automaton_after {P : Automaton → Prop} (empty : P .empty)
    (insert : ∀ a w, w ≠ [] → P a → P (a.insert w)) (events : List Event) :
    P (after events).automaton := by
  induction events using List.reverseRecOn with
  | nil => exact empty
  | append_singleton events e ih =>
    rw [after_concat]
    rcases act_cases (after events) e with ⟨w, -, hw, h⟩ | ⟨w, depth, -, -, -, h⟩ | ⟨-, h⟩
    · rw [h]
      exact insert _ w hw ih
    · rwa [h]
    · rwa [h]

/-- The words of a history without refusals are all that has been offered. -/
theorem words_after {events : List Event} (h : Unrefused events) :
    (after events).automaton.words = offered events := by
  induction events using List.reverseRecOn with
  | nil => rfl
  | append_singleton events e ih =>
    have hwords := ih fun past v hp ↦ h past v (hp.trans (List.prefix_append events [e]))
    rw [after_concat, offered_concat, ← hwords]
    cases e with
    | setStrict strict => simp [Builder.act, Event.word?]
    | setVerbose verbose => simp [Builder.act, Event.word?]
    | offer v =>
      cases hv : v.word with
      | error r => simp [Builder.act, offer_of_error hv, Event.word?, hv, Except.toOption]
      | ok w =>
        have htaken : (after events).act (.offer v) = (after events).take w := by
          rcases act_offer (b := after events) hv with ht | ⟨depth, hr, -⟩
          · exact ht
          · exact absurd hr (h events v (List.prefix_refl _) w depth)
        rw [htaken, word?_offer hv]
        rfl

open Automaton

/-- What a builder holds once the words have been offered to it. -/
structure Holds (b : Builder) (words : List Word) : Prop where
  tree : Spells b.automaton (accepted words)
  mem_words : ∀ w, w ∈ b.automaton.words ↔ w ∈ accepted words ∨ w ∈ b.automaton.conflicts
  rival : ∀ w ∈ b.automaton.conflicts, HasRival (accepted words) w

namespace Holds

variable {b : Builder} {words : List Word} {w : Word}

theorem empty : Holds {} [] where
  tree := .empty
  mem_words := by simp [Automaton.empty]
  rival := by simp [Automaton.empty]

theorem take (h : Holds b words) (hw : w ≠ []) : Holds (b.take w) (words ++ [w]) := by
  have hc : (b.take w).automaton.conflicts = if (b.automaton.conflictDepth? w).isSome
      then b.automaton.conflicts ++ [w] else b.automaton.conflicts := rfl
  have ht : (b.take w).automaton.words = b.automaton.words ++ [w] := rfl
  simp only [h.tree.hasRival_iff hw] at hc
  refine ⟨?_, ?_, ?_⟩
  · rw [accepted_concat]
    exact h.tree.insert hw
  · intro v
    rw [ht, hc, accepted_concat, mem_accept, List.mem_append, List.mem_singleton, h.mem_words]
    by_cases hr : HasRival (accepted words) w
    · simp [hr, or_assoc]
    · simp [hr, or_right_comm]
  · intro v hv
    rw [accepted_concat]
    refine HasRival.mono ?_ (subset_accept _ w)
    by_cases hr : HasRival (accepted words) w
    · rw [hc, if_pos hr, List.mem_append, List.mem_singleton] at hv
      rcases hv with hv | rfl
      · exact h.rival v hv
      · exact hr
    · rw [hc, if_neg hr] at hv
      exact h.rival v hv

theorem refuse (h : Holds b words) (hw : w ≠ []) {depth : Nat}
    (hd : b.automaton.conflictDepth? w = some depth) : Holds b (words ++ [w]) := by
  have ha : accepted (words ++ [w]) = accepted words := by
    rw [accepted_concat]
    exact h.tree.accept_of_conflict hw hd
  exact ⟨ha ▸ h.tree, ha ▸ h.mem_words, ha ▸ h.rival⟩

theorem of_same_automaton {c : Builder} (h : Holds b words) (he : c.automaton = b.automaton) :
    Holds c words where
  tree := he ▸ h.tree
  mem_words := he ▸ h.mem_words
  rival := he ▸ h.rival

theorem act (h : Holds b words) (e : Event) : Holds (b.act e) (words ++ e.word?.toList) := by
  rcases act_cases b e with ⟨w, he, hw, ha⟩ | ⟨w, depth, he, hw, hd, ha⟩ | ⟨he, ha⟩
  · rw [he]
    exact (h.take hw).of_same_automaton ha
  · rw [he]
    exact (h.refuse hw hd).of_same_automaton ha
  · simpa [he] using h.of_same_automaton ha

end Holds

theorem holds_after (events : List Event) : Holds (after events) (offered events) := by
  induction events using List.reverseRecOn with
  | nil => exact .empty
  | append_singleton events e ih =>
    rw [after_concat, offered_concat]
    exact ih.act e

end Builder

end Recognizer
