import Recognizer.Proofs.Refinement
/-!
Insertions that break off leave no trace. Main statement: a fresh store into which the words of a
store are inserted comes to keep the same; and one that breaks off has changed nothing, wherever the
fault is, and one that does not has done the same as if the store were not strict.
-/

namespace Recognizer

namespace Value

theorem word_text {w : Word} (hw : w ≠ []) : (text (.ofList w)).word = .ok w := by
  simp [word, hw]

theorem symbols_append_fault {good rest : List Value} {bad : Value}
    (hg : ∀ v ∈ good, v.char?.isSome) (hb : bad.char? = none) :
    symbols (good ++ bad :: rest) = .error bad := by
  induction good with
  | nil => simp [symbols, hb]
  | cons v good ih =>
    obtain ⟨c, hc⟩ := Option.isSome_iff_exists.1 (hg v List.mem_cons_self)
    have hrest := ih fun u hu ↦ hg u (List.mem_cons_of_mem v hu)
    simp [symbols, hc, hrest, Except.map]

/-- The first fault of a list is the one that is named, wherever it stands. -/
theorem word_list_fault {good rest : List Value} {bad : Value}
    (hg : ∀ v ∈ good, v.char?.isSome) (hb : bad.char? = none) :
    (list (good ++ bad :: rest)).word =
      .error (.notACharacter (.list (good ++ bad :: rest)) bad) := by
  have hs : symbols (good ++ bad :: rest) = .error bad := symbols_append_fault hg hb
  rw [word, hs]
  · rfl
  · simp

end Value

namespace Automaton

def ofWords (words : List Word) : Automaton := words.foldl insert empty

theorem ofWords_concat (words : List Word) (w : Word) :
    ofWords (words ++ [w]) = (ofWords words).insert w := by
  simp [ofWords]

theorem words_ofWords (words : List Word) : (ofWords words).words = words := by
  induction words using List.reverseRecOn with
  | nil => rfl
  | append_singleton words w ih => rw [ofWords_concat, insert, ih]

end Automaton

namespace Builder

open Automaton

variable {b taken : Builder} {v : Value} {notes : Notes} {words : List Word}

theorem eq_ofWords_after (events : List Event) :
    (after events).automaton = ofWords (after events).automaton.words := by
  refine automaton_after (P := fun a ↦ a = ofWords a.words) rfl ?_ events
  intro a w _ ha
  calc a.insert w = (ofWords a.words).insert w := by rw [← ha]
    _ = ofWords (a.words ++ [w]) := (ofWords_concat a.words w).symm

theorem ne_nil_of_mem_words_after (events : List Event) :
    ∀ w ∈ (after events).automaton.words, w ≠ [] := by
  refine automaton_after (P := fun a ↦ ∀ w ∈ a.words, w ≠ []) (by simp [Automaton.empty]) ?_ events
  intro a w hw ha u hu
  rcases List.mem_append.1 hu with hu | hu
  · exact ha u hu
  · rwa [List.mem_singleton.1 hu]

/-- A lenient builder takes every word. -/
theorem offerAll_of_lenient {values : List Value} (hs : b.strict = false)
    (hv : values.map Value.word = words.map .ok) : (b.offerAll values).2 =
      .ok { b with automaton := words.foldl Automaton.insert b.automaton } := by
  induction values generalizing b words with
  | nil =>
    obtain rfl : words = [] := by simpa using hv.symm
    rfl
  | cons v values ih =>
    cases words with
    | nil => simp at hv
    | cons w words =>
      obtain ⟨hword, hrest⟩ := List.cons_eq_cons.1 hv
      rw [offerAll, offer_of_lenient hword hs]
      exact ih (b := b.take w) hs hrest

theorem word_texts (hw : ∀ w ∈ words, w ≠ []) :
    (words.map fun w ↦ Value.text (.ofList w)).map Value.word = words.map .ok := by
  rw [List.map_map]
  exact List.map_congr_left fun w hm ↦ Value.word_text (hw w hm)

end Builder

namespace Store

variable {s t : Store} {notes said : Notes} {v : Value} {w : Word}

/-- Recording has no regard to strictness. -/
theorem outcome_record_strict (strict : Bool) (word : Word) (q : State) (w : Word) :
    (record word q w).outcome ({ s with strict }, notes) =
      let (result, t, said) := (record word q w).outcome (s, notes)
      (result, { t with strict }, said) := by
  induction w generalizing s q notes with
  | nil => rfl
  | cons c w ih =>
    have hstep (u : Store) (q : State) : ({ u with strict } : Store).step q c = u.step q c := rfl
    cases h : s.next? q c with
    | some p =>
      have h' : ({ s with strict } : Store).next? q c = some p := h
      simp only [record, Action.outcome_bind, outcome_ensure_of_some h, outcome_ensure_of_some h',
        Action.outcome_now, hstep, ih]
    | none =>
      have h' : ({ s with strict } : Store).next? q c = none := h
      have hextend : ({ s with strict } : Store).extend q c w.isEmpty =
          { s.extend q c w.isEmpty with strict } := rfl
      simp only [record, Action.outcome_bind, outcome_ensure_of_none h, outcome_ensure_of_none h',
        hextend, Action.outcome_now, hstep, ih]
      rfl

theorem clash?_strict (s : Store) (strict : Bool) (q : State) (depth : Nat) (w : Word) :
    ({ s with strict } : Store).clash? q depth w = s.clash? q depth w := by
  induction w generalizing q depth with
  | nil => rfl
  | cons c w ih =>
    have hnext : ({ s with strict } : Store).next? q c = s.next? q c := rfl
    simp only [clash?, hnext, ih]

/-- A word that is let through is let through in the same way when the store is not strict. -/
theorem outcome_judge_lenient (h : (judge w).outcome (s, notes) = (.ok (), t, said)) :
    (judge w).outcome ({ s with strict := false }, notes) =
      (.ok (), { t with strict := false }, said) := by
  have hclash := clash?_strict s false State.start 0 w
  cases hc : s.clash? State.start 0 w with
  | none =>
    rw [outcome_judge_of_none hc] at h
    cases h
    exact outcome_judge_of_none (hclash.trans hc)
  | some depth =>
    cases hs : s.strict with
    | true =>
      rw [outcome_judge_of_strict hc hs] at h
      cases h
    | false =>
      rw [outcome_judge_of_lenient hc hs] at h
      cases h
      exact outcome_judge_of_lenient (hclash.trans hc) rfl

theorem outcome_insert_lenient (h : (insert v).outcome (s, notes) = (.ok (), t, said)) :
    (insert v).outcome ({ s with strict := false }, notes) =
      (.ok (), { t with strict := false }, said) := by
  cases hv : v.word with
  | error r =>
    rw [outcome_insert_of_word_error hv] at h
    cases h
  | ok w =>
    cases hj : (judge w).outcome (s, notes) with
    | mk result left =>
      obtain ⟨u, warned⟩ := left
      cases result with
      | error r =>
        rw [outcome_insert_of_judge_error hv hj] at h
        cases h
      | ok _ =>
        rw [outcome_insert_of_judge_ok hv hj] at h
        cases h
        rw [outcome_insert_of_judge_ok hv (outcome_judge_lenient hj), outcome_record_strict]

/-- What a builder does not refuse goes into a store in full, from the first value to the last. -/
theorem outcome_insertAll_of_lenient (verbose : Bool) {values : List Value} {words : List Word}
    (hv : values.map Value.word = words.map .ok) : ∃ t said,
      (insertAll values).outcome ({ strict := false, verbose }, {}) = (.ok (), t, said) ∧
      t.InStep ∧ t.automaton = Automaton.ofWords words := by
  obtain ⟨t, ho, ht, hb⟩ := outcome_insertAll (inStep_empty verbose) .empty values {}
  have hall := Builder.offerAll_of_lenient (b := ({ verbose } : Store).builder) rfl hv
  rw [hall] at ho
  exact ⟨t, _, ho, ht, congrArg Builder.automaton (hb _ hall)⟩

/-- After any history, the words of the store make the same states, edges, words, conflicts and
transitions in a fresh store that is not strict. An insertion that breaks off has changed nothing,
wherever the fault is, and one that does not has the same effect whether the store is strict or
not. -/
theorem replay_after (events : List Builder.Event) :
    let s := after events
    (∀ verbose, ∃ t said, (insertAll (s.words.map fun w ↦ .text (.ofList w))).outcome
        ({ strict := false, verbose }, {}) = (.ok (), t, said) ∧
      t.states = s.states ∧ t.edges = s.edges ∧ t.words = s.words ∧ t.conflicts = s.conflicts ∧
      t.transition = s.transition) ∧
    (∀ v notes refusal left, (insert v).outcome (s, notes) = (.error refusal, left) →
      left = (s, notes)) ∧
    (∀ good bad rest notes, (∀ v ∈ good, (Value.char? v).isSome) → bad.char? = none →
      (insert (.list (good ++ bad :: rest))).outcome (s, notes) =
        (.error (.notACharacter (.list (good ++ bad :: rest)) bad), s, notes)) ∧
    ∀ strict v notes t said,
      (insert v).outcome ({ s with strict }, notes) = (.ok (), t, said) →
      (insert v).outcome ({ s with strict := false }, notes) =
        (.ok (), { t with strict := false }, said) := by
  intro s
  have hs : s.InStep := inStep_after events
  have hautomaton : s.automaton = (Builder.after events).automaton := automaton_after events
  refine ⟨?_, ?_, ?_, ?_⟩
  · intro verbose
    have hne : ∀ w ∈ s.automaton.words, w ≠ [] := by
      rw [hautomaton]
      exact Builder.ne_nil_of_mem_words_after events
    have hwords : s.automaton = Automaton.ofWords s.automaton.words := by
      rw [hautomaton]
      exact Builder.eq_ofWords_after events
    obtain ⟨t, said, ho, ht, ha⟩ :=
      outcome_insertAll_of_lenient verbose (Builder.word_texts hne)
    rw [← hwords] at ha
    refine ⟨t, said, ho, ?_, congrArg Automaton.edges ha, congrArg Automaton.words ha,
      congrArg Automaton.conflicts ha, ?_⟩
    · rw [ht.states_eq, hs.states_eq, ha]
    · rw [ht.transition_eq, hs.transition_eq, ha]
  · intro v notes refusal left h
    exact eq_of_outcome_insert_error h
  · intro good bad rest notes hg hb
    exact outcome_insert_of_word_error (Value.word_list_fault hg hb)
  · intro strict v notes t said h
    exact outcome_insert_lenient (s := { s with strict }) h

end Store

end Recognizer
