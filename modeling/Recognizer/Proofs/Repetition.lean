import Recognizer.Proofs.Language
/-!
Words that are offered again. The accepted words only grow, and none of them gets in the way of a
word that has met them before, so that a verdict once given stands. Main statement: this, and that a
word taken before adds no state and no edge when it is offered again.
-/

namespace Recognizer

section Accepted

variable {kept more words : List Word} {w : Word} {depth : Nat}

theorem Clashes.mono (h : Clashes kept w depth) (hs : kept ⊆ more) : Clashes more w depth := by
  rcases h with ⟨v, hv, hp, hd⟩ | ⟨⟨v, hv, hp⟩, hd⟩
  · exact .inl ⟨v, hs hv, hp, hd⟩
  · exact .inr ⟨⟨v, hs hv, hp⟩, hd⟩

theorem accepted_subset_append (words more : List Word) :
    accepted words ⊆ accepted (words ++ more) := by
  induction more using List.reverseRecOn with
  | nil => simp
  | append_singleton more w ih =>
    rw [← List.append_assoc, accepted_concat]
    exact List.Subset.trans ih (subset_accept _ w)

/-- A word clashes later with what it clashes with at first: if that is nothing, it is accepted. -/
theorem clashes_later_iff (words : List Word) (w : Word) (more : List Word) :
    Clashes (accepted (words ++ w :: more)) w depth ↔ Clashes (accepted words) w depth := by
  have hs := accepted_subset_append words (w :: more)
  refine ⟨fun h ↦ ?_, fun h ↦ h.mono hs⟩
  by_cases hr : HasRival (accepted words) w
  · obtain ⟨d, hd⟩ := exists_clashes hr
    obtain rfl := ((prefixFree_accepted _).existsUnique_clashes h.hasRival).unique h (hd.mono hs)
    exact hd
  · have hw : w ∈ accepted (words ++ [w]) := by
      rw [accepted_concat, mem_accept]
      exact .inr ⟨rfl, hr⟩
    have hlater : w ∈ accepted (words ++ w :: more) := by
      have hmore := accepted_subset_append (words ++ [w]) more hw
      rwa [List.append_assoc, List.singleton_append] at hmore
    exact absurd h.hasRival ((prefixFree_accepted _).not_hasRival hlater)

end Accepted

namespace Automaton

variable {a : Automaton} {q : State} {w : Word}

/-- A run that does not fail has edges to follow all along. -/
theorem follow_of_run (hg : Grown a.size a.edges) (h : a.run q w ≠ State.fail) :
    (a.follow q w).2 = [] := by
  induction w generalizing q with
  | nil => rfl
  | cons c w ih =>
    rw [run_cons, step] at h
    rw [follow]
    cases hn : a.next? q c with
    | none =>
      rw [hn] at h
      exact absurd (run_fail hg w) h
    | some p =>
      rw [hn] at h
      exact ih h

theorem insert_of_run (hg : Grown a.size a.edges) (h : a.run State.start w ≠ State.fail) :
    a.insert w = { a with
      words := a.words ++ [w]
      conflicts := if (a.conflictDepth? w).isSome then a.conflicts ++ [w] else a.conflicts } := by
  have hf : (a.follow State.start w).2 = [] := follow_of_run hg h
  simp [insert, newEdges, hf, path]

end Automaton

namespace Builder

open Automaton

variable {b : Builder} {v : Value} {w : Word} {depth : Nat}

/-- The depth of the conflict for which an offer is refused, or of which it warns. Other refusals
say nothing of conflicts. -/
def verdict : Except Refusal (Builder × Notes) → Except Refusal (Option Nat)
  | .error (.conflict _ depth) => .ok (some depth)
  | .error refusal => .error refusal
  | .ok (_, notes) => match notes.warnings with
    | .conflict _ depth :: _ => .ok (some depth)
    | _ => .ok none

theorem verdict_offer (hv : v.word = .ok w) :
    verdict (b.offer v) = .ok (b.automaton.conflictDepth? w) := by
  cases h : b.automaton.conflictDepth? w with
  | none => simp [offer_of_none hv h, verdict, notes, h]
  | some depth =>
    cases hs : b.strict with
    | true => rw [offer_of_strict hv h hs, verdict]
    | false => simp [offer_of_lenient hv hs, verdict, notes, h]

theorem offered_append (events more : List Event) :
    offered (events ++ more) = offered events ++ offered more := List.filterMap_append

theorem conflictDepth?_later (past more : List Event) (hv : v.word = .ok w) :
    (after (past ++ .offer v :: more)).automaton.conflictDepth? w =
      (after past).automaton.conflictDepth? w := by
  have hw := Value.word_ne_nil hv
  have hoffered : offered (past ++ .offer v :: more) = offered past ++ w :: offered more := by
    rw [offered_append]
    exact congrArg (offered past ++ ·) (List.filterMap_cons_some (word?_offer hv))
  ext depth
  rw [(holds_after _).tree.conflictDepth?_eq_some_iff hw, hoffered, clashes_later_iff,
    (holds_after past).tree.conflictDepth?_eq_some_iff hw]

theorem run_ne_fail_of_mem {events : List Event} (hw : w ∈ (after events).automaton.words) :
    (after events).automaton.run State.start w ≠ State.fail := by
  have hs := (holds_after events).tree
  have hkept := accepted_words_after events ▸ mem_accepted_or_hasRival hw
  obtain ⟨y, hy, x, rfl⟩ := exists_chain_of_mem hs.prefixFree hw hkept
  intro hfail
  have hrun := run_chain hs (tree_after events) hy
  rw [run_append, hfail, run_fail hs.grown] at hrun
  exact absurd hrun (by decide)

/-- Whatever comes between, a word gets the same verdict when it is offered again. If it has been
taken, it then adds no state and no edge: it is listed once more, also among the conflicts if it is
one, or refused. -/
theorem verdict_again (past more : List Event) {v v' : Value} {w : Word} (hv : v.word = .ok w)
    (hv' : v'.word = .ok w) :
    let b := after (past ++ .offer v :: more)
    let again := after (past ++ .offer v :: more ++ [.offer v'])
    ∃ given, verdict ((after past).offer v) = .ok given ∧ verdict (b.offer v') = .ok given ∧
      (w ∈ b.automaton.words →
        (given = none →
          again = { b with automaton := { b.automaton with words := b.automaton.words ++ [w] } }) ∧
        ∀ depth, given = some depth →
          (b.strict = true → again = b) ∧
          (b.strict = false → again = { b with automaton := { b.automaton with
            words := b.automaton.words ++ [w]
            conflicts := b.automaton.conflicts ++ [w] } })) := by
  intro b again
  have hagain : again = b.act (.offer v') := after_concat _ _
  refine ⟨b.automaton.conflictDepth? w, ?_, verdict_offer hv', fun hw ↦ ?_⟩
  · rw [verdict_offer hv, conflictDepth?_later past more hv]
  · have hinsert : b.automaton.insert w = _ :=
      insert_of_run (holds_after _).tree.grown (run_ne_fail_of_mem hw)
    rw [hagain]
    refine ⟨fun hd ↦ ?_, fun depth hd ↦ ⟨fun hs ↦ ?_, fun hs ↦ ?_⟩⟩
    · simp [act, offer_of_none hv' hd, take, hinsert, hd]
    · rw [act, offer_of_strict hv' hd hs]
    · simp [act, offer_of_lenient hv' hs, take, hinsert, hd]

theorem verdict_again_int :
    let past : List Event := [.offer (.text "in")]
    let more : List Event := [.setStrict true, .offer (.text "if"), .offer (.text "int")]
    let v : Value := .text "int"
    let b := after (past ++ .offer v :: more)
    let again := after (past ++ .offer v :: more ++ [.offer v])
    v.word = .ok "int".toList ∧ verdict ((after past).offer v) = .ok (some 2) ∧
      verdict (b.offer v) = .ok (some 2) ∧ again = b := by
  intro past more v b again
  have hv : v.word = .ok "int".toList := rfl
  have hfirst : verdict ((after past).offer v) = .ok (some 2) := rfl
  obtain ⟨given, hgiven, hsame, hmem⟩ := verdict_again past more hv hv
  obtain rfl : given = some 2 := Except.ok.inj (hgiven.symm.trans hfirst)
  exact ⟨hv, hfirst, hsame, ((hmem (by decide)).2 2 rfl).1 rfl⟩

end Builder

end Recognizer
