import Mathlib.Data.List.Count
import Mathlib.Data.List.Nodup
import Mathlib.Data.List.Range
import Recognizer.Proofs.Acceptance
import Recognizer.Proofs.Refinement
/-!
How states, edges and index are laid out. Main statements: after any history each edge enters the
final state or the next state in order, and is what the index leads along; and each action, also one
that breaks off, only adds to the end of what is there.
-/

namespace Recognizer

open Automaton

namespace Grown

variable {n : Nat} {edges : List Edge}

theorem nodup_keys (h : Grown n edges) : (edges.map fun e ↦ (e.source, e.symbol)).Nodup := by
  induction h with
  | empty => simp
  | @link n edges e _ _ _ hfree _ ih =>
    rw [List.map_append, List.map_singleton, ← List.concat_eq_append, List.nodup_concat]
    refine ⟨?_, ih⟩
    intro hm
    obtain ⟨d, hd, hk⟩ := List.mem_map.1 hm
    obtain ⟨hs, hc⟩ := Prod.mk.inj hk
    exact hfree d hd hs hc

/-- States are numbered in the order in which edges come to enter them. -/
theorem filter_destinations (h : Grown n edges) :
    (edges.map (·.destination)).filter (· ≠ State.final) = List.range' 3 (n - 3) := by
  induction h with
  | empty => rfl
  | @link n edges e h _ _ _ hd ih =>
    have h3 := h.three_le
    rw [List.map_append, List.filter_append, ih]
    rcases hd with hd | hd
    · have hn : max n (State.final + 1) = n := by lia
      simp [hd, hn]
    · have hn : max n (e.destination + 1) - 3 = n - 3 + 1 := by lia
      have he : e.destination ≠ State.final := by lia
      have hlast : 3 + (n - 3) = e.destination := by lia
      simp [hn, he, List.range'_concat, hlast]

/-- An edge leaves a root, or a state that an edge before it enters. -/
theorem source_of_append (h : Grown n edges) {past rest : List Edge} {e : Edge}
    (he : edges = past ++ e :: rest) : e.source = State.start ∨ e.source = State.final ∨
      ∃ d ∈ past, d.destination = e.source := by
  induction h generalizing rest with
  | empty => simp at he
  | @link n edges f h hs hf _ _ ih =>
    induction rest using List.reverseRecOn with
    | nil =>
      obtain ⟨rfl, hef⟩ := List.append_inj' he rfl
      obtain rfl : f = e := by simpa using hef
      by_cases h3 : f.source < 3
      · lia
      · have hm : f.source ∈ (edges.map (·.destination)).filter (· ≠ State.final) := by
          rw [h.filter_destinations, List.mem_range'_1]
          lia
        obtain ⟨d, hd, hdf⟩ := List.mem_map.1 (List.mem_of_mem_filter hm)
        exact .inr (.inr ⟨d, hd, hdf⟩)
    | append_singleton rest g =>
      have hl : edges ++ [f] = (past ++ e :: rest) ++ [g] := by simpa using he
      exact ih (List.append_inj' hl rfl).1

end Grown

namespace Automaton

variable {a : Automaton} {p q : State} {symbol : Char}

theorem step_eq_iff (hg : Grown a.size a.edges) (hp : p ≠ State.fail) :
    a.step q symbol = p ↔ ⟨q, symbol, p⟩ ∈ a.edges :=
  ⟨fun h ↦ edge_of_step h hp, step_of_edge hg⟩

theorem mem_edgesFrom : (symbol, p) ∈ a.edgesFrom q ↔ ⟨q, symbol, p⟩ ∈ a.edges := by
  simp only [edgesFrom, List.mem_map, List.mem_filter, decide_eq_true_eq, Prod.mk.injEq]
  constructor
  · rintro ⟨e, ⟨he, rfl⟩, rfl, rfl⟩
    exact he
  · intro h
    exact ⟨_, ⟨h, rfl⟩, rfl, rfl⟩

theorem nodup_edges (hg : Grown a.size a.edges) : a.edges.Nodup :=
  List.Nodup.of_map _ hg.nodup_keys

theorem nodup_edgesFrom (hg : Grown a.size a.edges) (q : State) : (a.edgesFrom q).Nodup := by
  refine List.Nodup.map_on ?_ ((nodup_edges hg).filter _)
  intro d hd e he h
  have hs : d.source = e.source := by
    rw [of_decide_eq_true (List.mem_filter.1 hd).2, of_decide_eq_true (List.mem_filter.1 he).2]
  exact hg.eq_of_key (List.mem_of_mem_filter hd) (List.mem_of_mem_filter he) hs (Prod.mk.inj h).1

theorem count_destinations (hg : Grown a.size a.edges) (h3 : 3 ≤ q) (hq : q < a.size) :
    (a.edges.map (·.destination)).count q = 1 := by
  have hfilter := List.count_filter (a := q) (p := (· ≠ State.final))
    (l := a.edges.map (·.destination)) (by simp; lia)
  rw [← hfilter, hg.filter_destinations]
  refine List.count_eq_one_of_mem List.nodup_range' ?_
  rw [List.mem_range'_1]
  lia

/-- A text that is not a single character makes no step. -/
theorem transition_of_forall_ne (a : Automaton) (z : Int) {s : String}
    (hs : ∀ symbol, s ≠ .ofList [symbol]) : a.transition z s = State.fail := by
  unfold transition
  split
  · next q symbol h => exact absurd (by rw [← h, String.ofList_toList]) (hs symbol)
  · rfl

theorem transition_eq_iff (hg : Grown a.size a.edges) {z : Int} {s : String}
    (hp : p ≠ State.fail) :
    a.transition z s = p ↔ ∃ symbol, s = .ofList [symbol] ∧ (symbol, p) ∈ a.edgesAt z := by
  by_cases hs : ∀ symbol, s ≠ .ofList [symbol]
  · rw [transition_of_forall_ne a z hs]
    exact ⟨fun h ↦ absurd h.symm hp, fun ⟨symbol, h, _⟩ ↦ absurd h (hs symbol)⟩
  · push Not at hs
    obtain ⟨symbol, rfl⟩ := hs
    cases z with
    | negSucc q => simp [transition, edgesAt, hp.symm]
    | ofNat q =>
      have hstep : a.transition (.ofNat q) (.ofList [symbol]) = a.step q symbol :=
        transition_singleton a q symbol
      rw [hstep, step_eq_iff hg hp, ← mem_edgesFrom]
      simp [edgesAt]

end Automaton

namespace Store

variable {s t u : Store}

/-- Each edge leaves a root, or a state that has been entered, by a symbol of its own, and enters
the final state or the next state in order; the transition function is what the edges say. -/
structure Regular (s : Store) : Prop where
  states : 3 ≤ s.states.length ∧ s.states = List.range s.states.length
  keys : (s.edges.map fun e ↦ (e.source, e.symbol)).Nodup
  ends : ∀ e ∈ s.edges, e.destination ≠ State.start ∧ e.destination ≠ State.fail ∧
    e.source ≠ State.fail
  destinations : (s.edges.map (·.destination)).filter (· ≠ State.final) =
    List.range' 3 (s.states.length - 3)
  entered_once : ∀ q ∈ s.interior, q ≠ State.start → (s.edges.map (·.destination)).count q = 1
  sources : ∀ past e rest, s.edges = past ++ e :: rest →
    e.source = State.start ∨ e.source = State.final ∨ ∃ d ∈ past, d.destination = e.source
  transition : ∀ q symbol p, p ≠ State.fail →
    (s.transition q symbol = p ↔ ∃ c, symbol = .ofList [c] ∧ (c, p) ∈ s.edgesAt q)
  edges_once : ∀ q, (s.edgesAt q).Nodup

theorem InStep.regular (hs : s.InStep) (hg : Grown s.states.length s.edges) : s.Regular where
  states := ⟨hg.three_le, hs.states⟩
  keys := hg.nodup_keys
  ends e he := ⟨hg.destination_ne_start he, hg.destination_ne_fail he, hg.source_ne_fail he⟩
  destinations := hg.filter_destinations
  entered_once q hq hstart := by
    obtain ⟨hmem, hends⟩ := List.mem_filter.1 hq
    obtain ⟨hfinal, hfail⟩ := of_decide_eq_true hends
    rw [hs.states_eq] at hmem
    exact count_destinations (a := s.automaton) hg (by lia) (mem_states.1 hmem)
  sources past e rest he := hg.source_of_append he
  transition q symbol p hp := by
    rw [hs.transition_eq, edgesAt_eq]
    exact transition_eq_iff (a := s.automaton) hg hp
  edges_once q := by
    rw [edgesAt_eq]
    cases q with
    | ofNat q => exact nodup_edgesFrom (a := s.automaton) hg q
    | negSucc q => exact List.nodup_nil

/-- What the one keeps, the other begins with. -/
structure Begins (s t : Store) : Prop where
  states : s.states <+: t.states
  edges : s.edges <+: t.edges
  words : s.words <+: t.words
  conflicts : s.conflicts <+: t.conflicts

theorem Begins.refl (s : Store) : s.Begins s where
  states := List.prefix_refl _
  edges := List.prefix_refl _
  words := List.prefix_refl _
  conflicts := List.prefix_refl _

theorem Begins.trans (h : s.Begins t) (h' : t.Begins u) : s.Begins u where
  states := h.states.trans h'.states
  edges := h.edges.trans h'.edges
  words := h.words.trans h'.words
  conflicts := h.conflicts.trans h'.conflicts

end Store

namespace Action

variable {α β : Type} {x : Action α} {f : α → Action β}

/-- However it ends, the action only adds to the end of what is there. -/
def Adds (x : Action α) : Prop :=
  ∀ found : Store × Notes, found.1.Begins (x.outcome found).2.1

theorem Adds.pure (a : α) : (pure a : Action α).Adds := fun found ↦ .refl found.1

theorem Adds.throw (r : Refusal) : (throw r : Action α).Adds := fun found ↦ .refl found.1

theorem Adds.now : Store.now.Adds := fun found ↦ .refl found.1

theorem Adds.say (more : Notes) : (Store.say more).Adds := fun found ↦ .refl found.1

theorem Adds.change {f : Store → Store} (h : ∀ s : Store, s.Begins (f s)) : (Store.change f).Adds :=
  fun found ↦ h found.1

theorem Adds.bind (hx : x.Adds) (hf : ∀ a, (f a).Adds) : (x >>= f).Adds := by
  intro found
  have hfirst := hx found
  rw [outcome_bind]
  generalize x.outcome found = first at hfirst ⊢
  obtain ⟨result, left⟩ := first
  cases result with
  | error r => exact hfirst
  | ok a => exact hfirst.trans (hf a left)

end Action

namespace Store

open Recognizer.Action

theorem adds_newState : newState.Adds := by
  apply Adds.now.bind
  intro s
  refine (Adds.change fun t ↦ ?_).bind fun _ ↦ .pure s.states.length
  exact { Begins.refl t with states := List.prefix_append _ _ }

theorem adds_link (e : Edge) : (link e).Adds := by
  refine (Adds.change fun t ↦ ?_).bind fun _ ↦ Adds.change fun t ↦ ?_
  · exact { Begins.refl t with }
  · exact { Begins.refl t with edges := List.prefix_append _ _ }

theorem adds_symbols (offered : Value) (values : List Value) : (symbols offered values).Adds := by
  induction values with
  | nil => exact .pure []
  | cons v values ih =>
    rw [symbols]
    cases v.char? with
    | none => exact .throw _
    | some c => exact ih.bind fun _ ↦ .pure _

theorem adds_spell (v : Value) : (spell v).Adds := by
  unfold spell
  split
  · exact .throw _
  · exact .throw _
  · exact adds_symbols v _

theorem adds_judge (w : Word) : (judge w).Adds := by
  apply Adds.now.bind
  intro s
  cases s.clash? State.start 0 w with
  | none => exact .pure ()
  | some depth =>
    have hwarn : (do
        say { warnings := [.conflict w depth] }
        change fun s ↦ { s with conflicts := s.conflicts ++ [w] }).Adds := by
      apply (Adds.say _).bind
      intro _
      exact .change fun t ↦ { Begins.refl t with conflicts := List.prefix_append _ _ }
    apply Adds.now.bind
    intro s
    cases s.strict with
    | true => exact (Adds.throw _).bind fun _ ↦ hwarn
    | false => exact hwarn

theorem adds_ensure (word : Word) (q : State) (c : Char) (last : Bool) :
    (ensure word q c last).Adds := by
  apply Adds.now.bind
  intro s
  cases s.next? q c with
  | some p => exact .pure ()
  | none =>
    have hlink (p : State) : (do
        link ⟨q, c, p⟩
        if (← now).verbose then say { narration := [Builder.narrate word ⟨q, c, p⟩] }).Adds := by
      apply (adds_link ⟨q, c, p⟩).bind
      intro _
      apply Adds.now.bind
      intro t
      cases t.verbose with
      | true => exact .say _
      | false => exact .pure ()
    cases last with
    | true => exact (Adds.pure State.final).bind hlink
    | false => exact adds_newState.bind hlink

theorem adds_record (word : Word) (q : State) (w : Word) : (record word q w).Adds := by
  induction w generalizing q with
  | nil => exact .pure ()
  | cons c w ih =>
    apply (adds_ensure word q c w.isEmpty).bind
    intro _
    exact Adds.now.bind fun s ↦ ih (s.step q c)

/-- Nothing that an insertion does, up to where it breaks off or to its end, takes anything back. -/
theorem adds_insert (v : Value) : (insert v).Adds := by
  apply (adds_spell v).bind
  intro w
  apply (adds_judge w).bind
  intro _
  apply (adds_record w State.start w).bind
  intro _
  exact .change fun t ↦ { Begins.refl t with words := List.prefix_append _ _ }

theorem begins_act (s : Store) (e : Builder.Event) : s.Begins (s.act e) := by
  cases e with
  | offer v => exact adds_insert v (s, {})
  | setStrict strict => exact { Begins.refl s with }
  | setVerbose verbose => exact { Begins.refl s with }

/-- After any history the store is regular, and whatever comes next, an insertion that gets to its
end or breaks off for any reason, only adds to the end of its lists. -/
theorem regular_after (events : List Builder.Event) :
    (after events).Regular ∧ ∀ e, (after events).Begins (after (events ++ [e])) := by
  refine ⟨(inStep_after events).regular (grown_after events), ?_⟩
  intro e
  rw [after_concat]
  exact begins_act _ e

end Store

end Recognizer
