import Recognizer.Proofs.Insertion
/-!
Insertion symbol by symbol. A word follows the edges that are there and adds one where there is
none; from then on it is on new states, which no edge leaves. Main statement: to record the symbols
of a word one by one adds what its insertion adds.
-/

namespace Recognizer.Automaton

/-- Each symbol in turn follows its edge, or adds one: to the final state if it is the last of the
word, and else to a new state. -/
def record (a : Automaton) (q : State) : Word → Automaton
  | [] => a
  | c :: w => match a.next? q c with
    | some p => a.record p w
    | none =>
      let p := if w = [] then State.final else a.size
      let size := if w = [] then a.size else a.size + 1
      record { a with size, edges := a.edges ++ [⟨q, c, p⟩] } p w

variable {a : Automaton} {q : State} {c : Char} {w : Word}

theorem next?_of_free (h : Free a.edges q (c :: w)) : a.next? q c = none :=
  next?_eq_none_iff.2 fun e he hs hc ↦ h e he hs (by rw [hc]; rfl)

/-- Once a symbol has found no edge, the symbols behind it find none either. -/
theorem record_of_free (hg : Grown a.size a.edges) (hq : q < a.size) (hf : q ≠ State.fail)
    (hfree : Free a.edges q w) : a.record q w =
      { a with size := a.size + (w.length - 1), edges := a.edges ++ path a.size q w } := by
  induction w generalizing a q with
  | nil => simp [record, path]
  | cons c w ih =>
    have h3 := hg.three_le
    rw [record, next?_of_free hfree]
    cases w with
    | nil => simp [record, path]
    | cons c' w =>
      have h := ih (a := { a with size := a.size + 1, edges := a.edges ++ [⟨q, c, a.size⟩] })
        (hg.link_new hq hf hfree) (Nat.lt_succ_self _) (by lia) (hg.free_new hq _)
      simpa [path, Nat.add_assoc, Nat.add_comm 1] using h

theorem record_eq (hg : Grown a.size a.edges) (hq : q < a.size) (hf : q ≠ State.fail) (w : Word) :
    a.record q w = { a with
      size := a.size + ((a.follow q w).2.length - 1)
      edges := a.edges ++ path a.size (a.follow q w).1 (a.follow q w).2 } := by
  induction w generalizing q with
  | nil => simp [record, follow, path]
  | cons c w ih =>
    rw [follow]
    cases h : a.next? q c with
    | none => exact record_of_free hg hq hf (free_of_next? h)
    | some p =>
      have he := mem_edges_of_next? h
      rw [record, h]
      exact ih (hg.destination_lt he) (hg.destination_ne_fail he)

/-- The conflicts on record are left alone. -/
theorem record_conflicts (a : Automaton) (conflicts : List Word) (q : State) (w : Word) :
    ({ a with conflicts } : Automaton).record q w = { a.record q w with conflicts } := by
  induction w generalizing a q with
  | nil => rfl
  | cons c w ih =>
    have hnext : ({ a with conflicts } : Automaton).next? q c = a.next? q c := rfl
    rw [record, record, hnext]
    cases a.next? q c with
    | none => exact ih { a with size := _, edges := _ } _
    | some p => exact ih a p

theorem words_record (a : Automaton) (q : State) (w : Word) : (a.record q w).words = a.words := by
  induction w generalizing a q with
  | nil => rfl
  | cons c w ih =>
    rw [record]
    cases a.next? q c with
    | none => exact ih _ _
    | some p => exact ih a p

/-- To insert a word is to record its symbols. -/
theorem insert_eq_record (hg : Grown a.size a.edges) (w : Word) :
    a.insert w = { a.record State.start w with
      words := a.words ++ [w]
      conflicts := if (a.conflictDepth? w).isSome then a.conflicts ++ [w] else a.conflicts } := by
  have h3 := hg.three_le
  rw [record_eq hg (by lia) (by decide) w, insert, newEdges]

end Recognizer.Automaton
