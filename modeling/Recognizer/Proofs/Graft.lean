import Recognizer.Proofs.Record
import Recognizer.Proofs.Repetition
import Recognizer.Proofs.Representation
/-!
What an insertion adds. Main statement: an offer that is taken adds nothing, or one chain of edges
for the rest of the word.
-/

namespace Recognizer

namespace Automaton

/-- The one automaton is the other with a chain of edges grafted on it, from where the word `known`
leads to the final state, through new states only. -/
structure Graft (a b : Automaton) (known fresh : Word) (chain : List Edge) : Prop where
  edges : b.edges = a.edges ++ chain
  states : b.states = a.states ++ List.range' a.states.length (fresh.length - 1)
  root : a.run State.start known ∈ a.states ∧ a.run State.start known ≠ State.fail
  symbols : chain.map (·.symbol) = fresh
  sources : chain.map (·.source) =
    a.run State.start known :: List.range' a.states.length (fresh.length - 1)
  destinations : chain.map (·.destination) =
    List.range' a.states.length (fresh.length - 1) ++ [State.final]
  inner : ∀ e ∈ chain.dropLast, e.destination ≠ State.final

variable {a : Automaton} {n : Nat} {q : State} {c : Char} {w : Word}

section Path

theorem map_source_path (n q : State) (hw : w ≠ []) :
    (path n q w).map (·.source) = q :: List.range' n (w.length - 1) := by
  induction w generalizing n q with
  | nil => exact absurd rfl hw
  | cons c w ih =>
    cases w with
    | nil => rfl
    | cons c' w =>
      have h := ih (n + 1) n (List.cons_ne_nil c' w)
      simp [path, h, List.range'_succ]

theorem map_destination_path (n q : State) (hw : w ≠ []) :
    (path n q w).map (·.destination) = List.range' n (w.length - 1) ++ [State.final] := by
  induction w generalizing n q with
  | nil => exact absurd rfl hw
  | cons c w ih =>
    cases w with
    | nil => rfl
    | cons c' w =>
      have h := ih (n + 1) n (List.cons_ne_nil c' w)
      simp [path, h, List.range'_succ]

theorem destination_ne_final_of_mem_path (h3 : 3 ≤ n) (hw : w ≠ []) {e : Edge}
    (he : e ∈ (path n q w).dropLast) : e.destination ≠ State.final := by
  have hmem := List.mem_map_of_mem (f := (·.destination)) he
  rw [List.map_dropLast, map_destination_path n q hw, List.dropLast_concat,
    List.mem_range'_1] at hmem
  lia

end Path

theorem states_insert (a : Automaton) (w : Word) : (a.insert w).states = a.states ++
    List.range' a.states.length ((a.follow State.start w).2.length - 1) := by
  simp [states, insert, List.range_add, List.range'_eq_map_range]

/-- A word whose run fails is known up to the end of a branch, and fresh from there on. -/
theorem exists_graft_insert (hg : Grown a.size a.edges) (h : a.run State.start w = State.fail) :
    ∃ known fresh chain, known ++ fresh = w ∧ fresh ≠ [] ∧
      a.Graft (a.insert w) known fresh chain := by
  have h3 := hg.three_le
  have hsize : a.states.length = a.size := List.length_range
  obtain ⟨known, hw, hroot⟩ := follow_eq_run a State.start w
  have hlt := follow_lt hg (q := State.start) (by lia) w
  have hne := follow_ne_fail hg (q := State.start) (by decide) w
  have hedges := edges_insert a w
  have hstates := states_insert a w
  generalize (a.follow State.start w).2 = fresh at hw hedges hstates
  rw [← hroot] at hedges hlt hne
  have hfresh : fresh ≠ [] := by
    rintro rfl
    rw [List.append_nil] at hw
    exact hne (hw ▸ h)
  refine ⟨known, fresh, path a.size (a.run State.start known) fresh, hw, hfresh, ?_⟩
  exact
    { edges := hedges
      states := hstates
      root := ⟨mem_states.2 hlt, hne⟩
      symbols := map_symbol_path _ _ _
      sources := by rw [hsize, map_source_path _ _ hfresh]
      destinations := by rw [hsize, map_destination_path _ _ hfresh]
      inner := fun _ he ↦ destination_ne_final_of_mem_path h3 hfresh he }

end Automaton

namespace Builder

open Automaton

/-- After any history, an offer that is taken records its word symbol by symbol. This adds no state
and no edge if the edges for the word are there, and else one chain of edges for the symbols behind
those that have theirs. -/
theorem graft_after (events : List Event) {v : Value} {taken : Builder} {notes : Notes}
    (h : (after events).offer v = .ok (taken, notes)) :
    let a := (after events).automaton
    let b := taken.automaton
    ∃ w, v.word = .ok w ∧
      b = { a.record State.start w with
        words := a.words ++ [w]
        conflicts := if (a.conflictDepth? w).isSome then a.conflicts ++ [w] else a.conflicts } ∧
      (a.run State.start w ≠ State.fail ∧ b.states = a.states ∧ b.edges = a.edges ∨
        a.run State.start w = State.fail ∧ ∃ known fresh chain, known ++ fresh = w ∧ fresh ≠ [] ∧
          a.Graft b known fresh chain) := by
  intro a b
  have hg : Grown a.size a.edges := (holds_after events).tree.grown
  obtain ⟨w, hv, rfl, -⟩ := offer_eq_ok h
  refine ⟨w, hv, insert_eq_record hg w, ?_⟩
  by_cases hrun : a.run State.start w = State.fail
  · exact .inr ⟨hrun, exists_graft_insert hg hrun⟩
  · have hb : b = _ := insert_of_run hg hrun
    exact .inl ⟨hrun, by rw [hb, states, states], by rw [hb]⟩

/-- A word that runs through the final state twice before it leaves the edges. -/
theorem graft_after_inter :
    let events : List Event := [.offer (.text "in"), .offer (.text "int")]
    let b := after events
    let taken := b.take "inter".toList
    b.offer (.text "inter") = .ok (taken, b.notes "inter".toList) ∧
      b.automaton.Graft taken.automaton "int".toList "er".toList
        [⟨State.final, 'e', 4⟩, ⟨4, 'r', State.final⟩] := by
  intro events b taken
  have h : b.offer (.text "inter") = .ok (taken, b.notes "inter".toList) := rfl
  have hedges : taken.automaton.edges = b.automaton.edges ++
      [⟨State.final, 'e', 4⟩, ⟨4, 'r', State.final⟩] := by decide
  obtain ⟨w, hv, -, hcase⟩ := graft_after events h
  obtain rfl : w = "inter".toList := (Except.ok.inj hv).symm
  rcases hcase with ⟨hrun, -⟩ | ⟨-, known, fresh, chain, hw, -, hg⟩
  · exact absurd (by decide) hrun
  · obtain rfl := List.append_cancel_left (hg.edges.symm.trans hedges)
    obtain rfl : "er".toList = fresh := hg.symbols
    obtain rfl : known = "int".toList := List.append_cancel_right hw
    exact ⟨h, hg⟩

end Builder

end Recognizer
