import Recognizer.Code.Blueprint
import Recognizer.Proofs.History
import Recognizer.Proofs.Record
import Recognizer.Store.Insert
/-!
A store keeps the automaton that a builder is said to hold. Main statements: the records of a store
are in step after any history; an insertion breaks off just where the offer is refused, and then
leaves the store as it was; and what else it leaves is the builder that took the offer.
-/

namespace Recognizer

namespace Store

open Builder (Event)

def builder (s : Store) : Builder where
  automaton := s.automaton
  strict := s.strict
  verbose := s.verbose

/-- States are numbered without gaps, and the index leads where the edges do. -/
structure InStep (s : Store) : Prop where
  states : s.states = List.range s.states.length
  index : ∀ q c, s.next? q c = s.automaton.next? q c

/-- An insertion that breaks off leaves the store in whatever state it has come to. -/
def act (s : Store) : Event → Store
  | .offer v => ((insert v).outcome (s, {})).2.1
  | .setStrict strict => { s with strict }
  | .setVerbose verbose => { s with verbose }

def after (events : List Event) : Store := events.foldl act {}

theorem after_concat (events : List Event) (e : Event) :
    after (events ++ [e]) = (after events).act e := by
  simp [after]

/-- The store with one more edge: to the final state, or to a new one. -/
def extend (s : Store) (q : State) (c : Char) (last : Bool) : Store :=
  let p := if last then State.final else s.states.length
  { s with
    states := if last then s.states else s.states ++ [s.states.length]
    index := ((q, c), p) :: s.index
    edges := s.edges ++ [⟨q, c, p⟩] }

variable {s t : Store} {notes said : Notes} {found left : Store × Notes} {q p : State} {c : Char}
  {w word : Word} {v offered : Value} {values : List Value} {last : Bool} {r : Refusal}

section Spell

theorem outcome_symbols : (symbols offered values).outcome found =
    ((Value.symbols values).mapError (.notACharacter offered), found) := by
  induction values with
  | nil => rfl
  | cons v values ih =>
    rw [symbols, Value.symbols]
    cases hc : v.char? with
    | none => rfl
    | some c =>
      simp only [Action.outcome_bind, ih]
      cases Value.symbols values <;> rfl

theorem symbols_texts (w : Word) : Value.symbols (w.map fun c ↦ .text (.ofList [c])) = .ok w := by
  induction w with
  | nil => rfl
  | cons c w ih =>
    rw [List.map_cons, Value.symbols, Value.char?_singleton]
    simp only [ih, Except.map]

/-- To spell a word changes nothing, whether the value spells one or not. -/
theorem outcome_spell : (spell v).outcome found = (v.word, found) := by
  cases v with
  | text s =>
    cases h : s.toList with
    | nil => simp [spell, Value.elements?, Value.word, h]
    | cons c w =>
      have hw := symbols_texts (c :: w)
      rw [List.map_cons] at hw
      simp only [spell, Value.elements?, h, List.map_cons, outcome_symbols, hw, Value.word]
      rfl
  | list values =>
    cases values with
    | nil => rfl
    | cons v values => exact outcome_symbols
  | number n => rfl
  | truth b => rfl
  | nothing => rfl

end Spell

section Judge

theorem clash?_eq (hs : s.InStep) (q : State) (depth : Nat) (w : Word) :
    s.clash? q depth w = (s.automaton.clash? q w).map (· + depth) := by
  induction w generalizing q depth with
  | nil =>
    rw [clash?, Automaton.clash?]
    split <;> simp
  | cons c w ih =>
    rw [clash?, Automaton.clash?]
    split
    · simp
    · rw [hs.index]
      cases s.automaton.next? q c with
      | none => rfl
      | some p =>
        simp only [ih, Option.map_map]
        congr 1
        funext n
        simp only [Function.comp_apply]
        omega

theorem clash?_start (hs : s.InStep) (w : Word) :
    s.clash? State.start 0 w = s.automaton.conflictDepth? w := by
  rw [clash?_eq hs, Automaton.conflictDepth?]
  simp

theorem outcome_judge_of_none (h : s.clash? State.start 0 w = none) :
    (judge w).outcome (s, notes) = (.ok (), s, notes) := by
  simp [judge, Action.outcome_bind, h]

theorem outcome_judge_of_strict {depth : Nat} (h : s.clash? State.start 0 w = some depth)
    (hs : s.strict = true) :
    (judge w).outcome (s, notes) = (.error (.conflict w depth), s, notes) := by
  simp [judge, Action.outcome_bind, h, hs]

theorem outcome_judge_of_lenient {depth : Nat} (h : s.clash? State.start 0 w = some depth)
    (hs : s.strict = false) : (judge w).outcome (s, notes) =
      (.ok (), { s with conflicts := s.conflicts ++ [w] },
        notes ++ { warnings := [.conflict w depth] }) := by
  simp [judge, Action.outcome_bind, h, hs]

/-- A word that is not refused goes on record just if it conflicts. -/
theorem outcome_judge_of_taken (hs : s.InStep)
    (h : s.strict = false ∨ s.automaton.conflictDepth? w = none) : (judge w).outcome (s, notes) =
      (.ok (),
        { s with conflicts := if (s.automaton.conflictDepth? w).isSome then s.conflicts ++ [w]
            else s.conflicts },
        notes ++ { warnings := (s.automaton.conflictDepth? w).toList.map (.conflict w) }) := by
  cases hc : s.automaton.conflictDepth? w with
  | none => simp [outcome_judge_of_none ((clash?_start hs w).trans hc)]
  | some depth =>
    have hlenient : s.strict = false := h.resolve_right (by simp [hc])
    simp [outcome_judge_of_lenient ((clash?_start hs w).trans hc) hlenient]

/-- A word that is refused is refused before anything changes. -/
theorem eq_of_outcome_judge_error (h : (judge w).outcome found = (.error r, left)) :
    left = found := by
  obtain ⟨s, notes⟩ := found
  cases hc : s.clash? State.start 0 w with
  | none =>
    rw [outcome_judge_of_none hc] at h
    cases h
  | some depth =>
    cases hs : s.strict with
    | true =>
      rw [outcome_judge_of_strict hc hs] at h
      exact (Prod.mk.inj h).2.symm
    | false =>
      rw [outcome_judge_of_lenient hc hs] at h
      cases h

end Judge

section Record

/-- What is said of new edges. -/
def told (s : Store) (word : Word) (edges : List Edge) : Notes where
  narration := if s.verbose then edges.map (Builder.narrate word) else []

theorem told_append (s : Store) (word : Word) (edges more : List Edge) :
    s.told word edges ++ s.told word more = s.told word (edges ++ more) := by
  cases h : s.verbose with
  | true =>
    simp only [told, h, if_true, List.map_append]
    rfl
  | false =>
    simp only [told, h]
    rfl

theorem outcome_ensure_of_some (h : s.next? q c = some p) :
    (ensure word q c last).outcome (s, notes) = (.ok (), s, notes) := by
  simp [ensure, Action.outcome_bind, h]

theorem outcome_ensure_of_none (h : s.next? q c = none) :
    (ensure word q c last).outcome (s, notes) = (.ok (), s.extend q c last, notes ++
      s.told word [⟨q, c, if last then State.final else s.states.length⟩]) := by
  cases last <;> cases hv : s.verbose <;>
    simp [ensure, newState, link, extend, told, Action.outcome_bind, h, hv]

theorem next?_extend (s : Store) (q : State) (c : Char) (last : Bool) (o : State) (d : Char) :
    (s.extend q c last).next? o d =
      if o = q ∧ d = c then some (if last then State.final else s.states.length)
      else s.next? o d := by
  by_cases h : o = q ∧ d = c
  · simp [extend, next?, h]
  · have hne : ((o, d) == (q, c)) = false := by simpa using h
    simp [extend, next?, List.lookup_cons, hne, h]

theorem automaton_extend (s : Store) (q : State) (c : Char) (last : Bool) :
    (s.extend q c last).automaton = { s.automaton with
      size := if last then s.automaton.size else s.automaton.size + 1
      edges := s.automaton.edges ++
        [⟨q, c, if last then State.final else s.automaton.size⟩] } := by
  cases last <;> simp [extend, automaton]

/-- A key that was free is found where the new edge is. -/
theorem InStep.extend (hs : s.InStep) (h : s.next? q c = none) : (s.extend q c last).InStep where
  states := by
    cases last with
    | true => exact hs.states
    | false =>
      simp only [Store.extend, Bool.false_eq_true, if_false, List.length_append,
        List.length_singleton, List.range_succ]
      rw [← hs.states]
  index o d := by
    rw [automaton_extend, Automaton.next?_link, ← hs.index, next?_extend]
    by_cases hkey : o = q ∧ d = c
    · obtain ⟨rfl, rfl⟩ := hkey
      simp [h, automaton]
    · have hkey' : ¬ (q = o ∧ c = d) := fun h ↦ hkey ⟨h.1.symm, h.2.symm⟩
      simp [hkey, hkey']

/-- The symbols of a word go into the store as they go into its automaton. -/
theorem outcome_record (hs : s.InStep) (word : Word) (q : State) (w : Word) (notes : Notes) :
    ∃ t edges, (record word q w).outcome (s, notes) = (.ok (), t, notes ++ s.told word edges) ∧
      t.InStep ∧ t.builder = { s.builder with automaton := s.automaton.record q w } ∧
      t.edges = s.edges ++ edges := by
  induction w generalizing s q notes with
  | nil => exact ⟨s, [], by simp [record, told], hs, rfl, by simp⟩
  | cons c w ih =>
    cases h : s.next? q c with
    | some p =>
      have hstep : s.step q c = p := by simp [step, h]
      have hrecord : s.automaton.record q (c :: w) = s.automaton.record p w := by
        rw [Automaton.record, ← hs.index, h]
      obtain ⟨t, edges, ho, ht⟩ := ih hs p notes
      refine ⟨t, edges, ?_, by rwa [hrecord]⟩
      simpa [record, Action.outcome_bind, outcome_ensure_of_some h, hstep] using ho
    | none =>
      let u := s.extend q c w.isEmpty
      let p := if w.isEmpty then State.final else s.states.length
      have hstep : u.step q c = p := by simp [u, p, step, next?_extend]
      have hrecord : s.automaton.record q (c :: w) = u.automaton.record p w := by
        rw [Automaton.record, ← hs.index, h]
        cases w with
        | nil => simp [u, p, automaton_extend]
        | cons d w =>
          simp [u, p, automaton_extend]
          rfl
      obtain ⟨t, edges, ho, ht, hb, he⟩ := ih (hs.extend h) p (notes ++ s.told word [⟨q, c, p⟩])
      refine ⟨t, ⟨q, c, p⟩ :: edges, ?_, ht, ?_, ?_⟩
      · have htold : u.told word edges = s.told word edges := rfl
        simp only [record, Action.outcome_bind, outcome_ensure_of_none h, Action.outcome_now]
        rw [hstep, ho, htold, Notes.append_assoc, told_append, List.singleton_append]
      · rw [hb, hrecord]
        rfl
      · rw [he]
        simp [extend, p]

/-- Nothing breaks off while symbols are recorded. -/
theorem outcome_record_fst (word : Word) (q : State) (w : Word) (found : Store × Notes) :
    ((record word q w).outcome found).1 = .ok () := by
  obtain ⟨s, notes⟩ := found
  induction w generalizing s q notes with
  | nil => rfl
  | cons c w ih =>
    cases h : s.next? q c with
    | some p => simp [record, Action.outcome_bind, outcome_ensure_of_some h, ih]
    | none => simp [record, Action.outcome_bind, outcome_ensure_of_none h, ih]

end Record

section Insert

theorem outcome_insert_of_word_error (hv : v.word = .error r) :
    (insert v).outcome found = (.error r, found) := by
  simp [insert, Action.outcome_bind, outcome_spell, hv]

theorem outcome_insert_of_judge_error (hv : v.word = .ok w)
    (hj : (judge w).outcome found = (.error r, left)) :
    (insert v).outcome found = (.error r, left) := by
  simp [insert, Action.outcome_bind, outcome_spell, hv, hj]

/-- An insertion gets to its end once the word has been let through. -/
theorem outcome_insert_of_judge_ok (hv : v.word = .ok w)
    (hj : (judge w).outcome found = (.ok (), left)) : (insert v).outcome found =
      let (t, notes) := ((record w State.start w).outcome left).2
      (.ok (), { t with words := t.words ++ [w] }, notes) := by
  have hr := outcome_record_fst w State.start w left
  simp only [insert, Action.outcome_bind, outcome_spell, hv, hj]
  generalize (record w State.start w).outcome left = recorded at hr ⊢
  obtain ⟨result, t, notes⟩ := recorded
  subst hr
  simp [Action.outcome_change]

/-- An insertion that breaks off leaves everything as it was. -/
theorem eq_of_outcome_insert_error (h : (insert v).outcome found = (.error r, left)) :
    left = found := by
  cases hv : v.word with
  | error refusal =>
    rw [outcome_insert_of_word_error hv] at h
    exact (Prod.mk.inj h).2.symm
  | ok w =>
    cases hj : (judge w).outcome found with
    | mk result mid =>
      cases result with
      | error refusal =>
        rw [outcome_insert_of_judge_error hv hj] at h
        exact (Prod.mk.inj h).2 ▸ eq_of_outcome_judge_error hj
      | ok u =>
        rw [outcome_insert_of_judge_ok hv hj] at h
        cases h

theorem outcome_insert_of_error (hs : s.InStep) (notes : Notes)
    (h : s.builder.offer v = .error r) :
    (insert v).outcome (s, notes) = (.error r, s, notes) := by
  cases hv : v.word with
  | error refusal =>
    rw [Builder.offer_of_error hv] at h
    cases h
    exact outcome_insert_of_word_error hv
  | ok w =>
    rw [Builder.offer, hv] at h
    obtain ⟨hstrict, depth, hd, rfl⟩ := Builder.offerWord_eq_error_iff.1 h
    have hc : s.clash? State.start 0 w = some depth := (clash?_start hs w).trans hd
    exact outcome_insert_of_judge_error hv (outcome_judge_of_strict hc hstrict)

/-- What the builder takes goes into the store. -/
theorem outcome_insert_of_ok (hs : s.InStep) (hg : Grown s.states.length s.edges) (notes : Notes)
    {taken : Builder} (h : s.builder.offer v = .ok (taken, said)) :
    ∃ t, (insert v).outcome (s, notes) = (.ok (), t, notes ++ said) ∧ t.InStep ∧
      t.builder = taken := by
  obtain ⟨w, hv, rfl, rfl⟩ := Builder.offer_eq_ok h
  have htaken : s.strict = false ∨ s.automaton.conflictDepth? w = none := by
    cases hd : s.automaton.conflictDepth? w with
    | none => exact .inr rfl
    | some depth =>
      cases hstrict : s.strict with
      | false => exact .inl rfl
      | true =>
        rw [Builder.offer_of_strict hv hd hstrict] at h
        cases h
  let conflicts := if (s.automaton.conflictDepth? w).isSome then s.conflicts ++ [w]
    else s.conflicts
  let warned := notes ++ { warnings := (s.automaton.conflictDepth? w).toList.map (.conflict w) }
  have hjudge : (judge w).outcome (s, notes) = (.ok (), { s with conflicts }, warned) :=
    outcome_judge_of_taken hs htaken
  have hs' : ({ s with conflicts } : Store).InStep := ⟨hs.states, hs.index⟩
  obtain ⟨t, edges, ho, ht, hb, he⟩ := outcome_record hs' w State.start w warned
  have hinsert : { t.automaton with words := t.words ++ [w] } = s.automaton.insert w := by
    have hrecord : t.automaton = { s.automaton.record State.start w with conflicts } :=
      (congrArg Builder.automaton hb).trans (Automaton.record_conflicts s.automaton conflicts _ w)
    have hwords : t.words = s.words :=
      (congrArg Automaton.words hrecord).trans (Automaton.words_record s.automaton _ w)
    rw [Automaton.insert_eq_record (a := s.automaton) hg, hrecord, hwords]
    rfl
  have hedges : edges = s.automaton.newEdges w :=
    List.append_cancel_left (he.symm.trans (congrArg Automaton.edges hinsert))
  refine ⟨{ t with words := t.words ++ [w] }, ?_, ⟨ht.states, ht.index⟩, ?_⟩
  · rw [outcome_insert_of_judge_ok hv hjudge, ho]
    have hnotes : { warnings := (s.automaton.conflictDepth? w).toList.map (.conflict w) } ++
        s.told w (s.automaton.newEdges w) = s.builder.notes w := by
      change Notes.mk (_ ++ []) ([] ++ _) = _
      rw [List.append_nil]
      rfl
    rw [hedges, Notes.append_assoc]
    exact congrArg (fun said ↦ (_, _, notes ++ said)) hnotes
  · exact (Builder.mk.injEq ..).mpr
      ⟨hinsert, congrArg Builder.strict hb, congrArg Builder.verbose hb⟩

theorem outcome_insertAll (hs : s.InStep) (hg : Grown s.states.length s.edges)
    (values : List Value) (notes : Notes) : ∃ t,
      (insertAll values).outcome (s, notes) =
        ((s.builder.offerAll values).2.map fun _ ↦ (), t,
          notes ++ (s.builder.offerAll values).1) ∧
      t.InStep ∧ ∀ b, (s.builder.offerAll values).2 = .ok b → t.builder = b := by
  induction values generalizing s notes with
  | nil =>
    refine ⟨s, by simp [insertAll, Builder.offerAll, Except.map], hs, ?_⟩
    intro b h
    exact Except.ok.inj h
  | cons v values ih =>
    rw [insertAll, Action.outcome_bind, Builder.offerAll]
    cases h : s.builder.offer v with
    | error r =>
      rw [outcome_insert_of_error hs notes h]
      exact ⟨s, by simp [Except.map], hs, nofun⟩
    | ok given =>
      obtain ⟨taken, said⟩ := given
      obtain ⟨t, ho, ht, rfl⟩ := outcome_insert_of_ok hs hg notes h
      have hgt : Grown t.states.length t.edges := by
        obtain ⟨w, -, hw, -⟩ := Builder.offer_eq_ok h
        have hinsert : t.automaton = s.automaton.insert w := congrArg Builder.automaton hw
        have hgrown := Automaton.grown_insert (a := s.automaton) hg w
        rwa [← hinsert] at hgrown
      obtain ⟨u, hu, hus, hub⟩ := ih ht hgt (notes ++ said)
      refine ⟨u, ?_, hus, hub⟩
      rw [ho]
      simp only [hu, Notes.append_assoc]

end Insert

theorem inStep_empty (verbose : Bool) : ({ verbose } : Store).InStep := ⟨rfl, fun _ _ ↦ rfl⟩

theorem refines_after (events : List Event) :
    (after events).InStep ∧ (after events).builder = Builder.after events := by
  induction events using List.reverseRecOn with
  | nil => exact ⟨inStep_empty false, rfl⟩
  | append_singleton events e ih =>
    obtain ⟨hs, hb⟩ := ih
    rw [after_concat, Builder.after_concat, ← hb]
    cases e with
    | setStrict strict => exact ⟨⟨hs.states, hs.index⟩, rfl⟩
    | setVerbose verbose => exact ⟨⟨hs.states, hs.index⟩, rfl⟩
    | offer v =>
      rw [act, Builder.act]
      cases h : (after events).builder.offer v with
      | error refusal =>
        rw [outcome_insert_of_error hs {} h]
        exact ⟨hs, rfl⟩
      | ok taken =>
        have hg : Grown (after events).states.length (after events).edges := by
          have hholds := (Builder.holds_after events).tree.grown
          rwa [← hb] at hholds
        obtain ⟨t, ho, ht, hbuilder⟩ := outcome_insert_of_ok hs hg {} h
        rw [ho]
        exact ⟨ht, hbuilder⟩

/-- After any history the records are in step. -/
theorem inStep_after (events : List Event) : (after events).InStep := (refines_after events).1

/-- A builder with the same history holds what the store keeps. -/
theorem automaton_after (events : List Event) :
    (after events).automaton = (Builder.after events).automaton :=
  congrArg Builder.automaton (refines_after events).2

theorem spells_after (events : List Event) :
    Automaton.Spells (after events).automaton (accepted (Builder.offered events)) := by
  rw [automaton_after]
  exact (Builder.holds_after events).tree

theorem grown_after (events : List Event) :
    Grown (after events).states.length (after events).edges := (spells_after events).grown

section Answers

theorem InStep.step_eq (hs : s.InStep) (q : State) (c : Char) :
    s.step q c = s.automaton.step q c := by
  rw [step, hs.index, Automaton.step]

theorem InStep.run_eq (hs : s.InStep) (q : State) (w : Word) :
    s.run q w = s.automaton.run q w := by
  have hstep : s.step = s.automaton.step := funext₂ hs.step_eq
  rw [run, hstep, Automaton.run]

theorem InStep.transition_eq (hs : s.InStep) : s.transition = s.automaton.transition := by
  funext q symbol
  cases q with
  | negSucc q => rfl
  | ofNat q =>
    unfold transition Automaton.transition
    cases symbol.toList with
    | nil => rfl
    | cons c rest =>
      cases rest with
      | nil => exact hs.step_eq q c
      | cons d rest => rfl

theorem InStep.states_eq (hs : s.InStep) : s.states = s.automaton.states := hs.states

theorem edgesAt_eq (s : Store) : s.edgesAt = s.automaton.edgesAt := by
  funext z
  cases z with
  | ofNat q =>
    rw [edgesAt, Automaton.edgesAt, Automaton.edgesFrom]
    congr 2
    funext e
    exact decide_eq_decide.2 Int.ofNat_inj
  | negSucc q => simp [edgesAt, Automaton.edgesAt]

/-- In step, the records answer as the automaton does that has neither states nor an index. -/
theorem InStep.blueprint_eq (hs : s.InStep) : s.blueprint = s.automaton.blueprint := by
  have hinterior : s.interior = s.automaton.interior := by
    rw [interior, hs.states_eq, Automaton.interior]
  rw [blueprint, Automaton.blueprint, hinterior, hs.states_eq, edgesAt_eq, hs.transition_eq]
  rfl

end Answers

end Store

end Recognizer
