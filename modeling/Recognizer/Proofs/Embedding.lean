import Recognizer.Proofs.Breaks
import Recognizer.Proofs.Parts
/-!
The machine inside a complete module. Main statement: a complete module has the code of the machine
line for line, its block one level deeper, its functions at the end, and the tests, where they can
hold, after all of it.
-/

namespace Recognizer

namespace Code

open Layout

/-- A text cut behind its first line that is a closing brace and nothing else. -/
def cutBlock (text : List Char) : List Char × List Char :=
  let lines := text.splitOn '\n'
  let inside := lines.takeWhile (· ≠ ['\x7d'])
  let rest := lines.dropWhile (· ≠ ['\x7d'])
  (inside.flatMap (· ++ ['\n']) ++ ['\x7d', '\n'], ['\n'].intercalate rest.tail)

theorem cutBlock_append {lines : List (List Char)} (hfeed : ∀ line ∈ lines, '\n' ∉ line)
    (hbrace : ['\x7d'] ∉ lines) (rest : List Char) :
    cutBlock (lines.flatMap (· ++ ['\n']) ++ ['\x7d', '\n'] ++ rest) =
      (lines.flatMap (· ++ ['\n']) ++ ['\x7d', '\n'], rest) := by
  have hsplit : (['\x7d', '\n'] ++ rest).splitOn '\n' = ['\x7d'] :: rest.splitOn '\n' := by
    have hline : '\n' ∉ ['\x7d'] := by decide
    exact (List.splitOn_append_cons_self ['\x7d'] rest).trans
      (by rw [List.splitOn_eq_singleton hline, List.singleton_append])
  have hinside : ∀ line ∈ lines, decide (line ≠ ['\x7d']) = true := by
    intro line hl
    rw [decide_eq_true_iff]
    rintro rfl
    exact hbrace hl
  rw [List.append_assoc, cutBlock, Text.splitOn_flatMap hfeed, hsplit,
    List.takeWhile_append_of_pos hinside, List.dropWhile_append_of_pos hinside]
  simp [List.intercalate_splitOn]

section Brace

variable (a : Automaton)

theorem append_ne_brace (s : String) {t : String} (h : 1 < t.length) : s ++ t ≠ "\x7d" := by
  intro he
  have hlength := congrArg String.length he
  have hbrace : "\x7d".length = 1 := rfl
  rw [String.length_append, hbrace] at hlength
  omega

theorem ne_brace_dispatchArm (q : State) : AllLines (· ≠ "\x7d") [dispatchArm q] := by
  rw [dispatchArm, allLines_line]
  split
  · exact ⟨append_ne_brace _ (by decide), allLines_nil⟩
  · exact ⟨append_ne_brace _ (by decide), allLines_nil⟩

/-- Before its last line, no line of the method that takes a character is a brace alone. -/
theorem exists_consume : ∃ inside, consume a = inside ++ [.line "\x7d"] ∧ arePlain inside ∧
    AllLines (· ≠ "\x7d") inside := by
  have hplain := arePlain_consume a
  have harms := allLines_map ne_brace_dispatchArm a.states
  refine ⟨(consume a).dropLast, rfl, ?_, ?_⟩
  · simpa [consume] using hplain
  · simp [consume, harms]

theorem place_ne_brace {text : String} (h : text ≠ "\x7d") (width : Int) (depth : Nat) :
    (place width depth text).toList ≠ ['\x7d'] := by
  rw [toList_place]
  by_cases ht : text.toList = []
  · simp [ht]
  · rw [indented_of_ne_nil _ ht]
    intro he
    cases hn : (depth * width).toNat with
    | zero =>
      rw [hn] at he
      exact h (String.toList_inj.1 he)
    | succ n =>
      rw [hn, List.replicate_succ, List.cons_append] at he
      exact absurd (List.head_eq_of_cons_eq he) (by decide)

/-- The code of the machine is cut behind the method that takes a character. -/
theorem cutBlock_machine (width : Int) : cutBlock (print width 0 (machine a)).text.toList =
    ((print width 0 (consume a)).text.toList, (print width 0 (stateFunctions a)).text.toList) := by
  obtain ⟨inside, hc, hplain, hinside⟩ := exists_consume a
  have hunbroken := Part.unbroken_part a .consume (by decide)
  rw [Part.steps, hc, allLines_append] at hunbroken
  have hblock : (print width 0 (consume a)).text.toList =
      ((print width 0 inside).lines.map String.toList).flatMap (· ++ ['\n']) ++ ['\x7d', '\n'] := by
    rw [hc, toList_text_append hplain, toList_text_line, place_zero, toList_text, List.flatMap_map]
    rfl
  rw [machine, toList_text_append (arePlain_consume a), hblock]
  apply cutBlock_append
  · rw [List.forall_mem_map, lines_print hplain, List.forall_mem_map]
    intro line hl
    rw [toList_place]
    exact notMem_indented (hunbroken.1 line hl) _
  · rw [lines_print hplain, List.map_map, List.mem_map]
    rintro ⟨line, hl, he⟩
    exact place_ne_brace (hinside line hl) width _ he

end Brace

theorem toList_text_functions (a : Automaton) (width : Int) :
    (print width 0 (stateFunctions a)).text.toList = a.interior.flatMap fun q : State ↦
      (print width 0 (stateFunction a q a.stateType.name)).text.toList := by
  have hfunctions : stateFunctions a =
      a.interior.flatMap fun q : State ↦ stateFunction a q a.stateType.name := rfl
  rw [hfunctions]
  induction a.interior with
  | nil => rfl
  | cons q states ih =>
    rw [List.flatMap_cons, toList_text_append (arePlain_stateFunction a q _), ih,
      List.flatMap_cons]

/-- Behind what a complete module starts with, the methods of the automaton stand one level deeper,
and then the functions of the states. -/
theorem toList_text_standalone (a : Automaton) (width : Int) :
    let text (steps : List Step) := (print width 0 steps).text.toList
    let deeper := mapLines (indented width.toNat)
    ∃ opening : List Step, text (standalone a) = text opening ++ "impl KeywordDFA \x7b\n".toList ++
      deeper (text check) ++ deeper "\n#[inline(always)]\n".toList ++ deeper (text (consume a)) ++
      "\x7d\n\n".toList ++ text (stateFunctions a) := by
  intro text deeper
  let between : List Step := [.line "", .line "#[inline(always)]"]
  obtain ⟨opening, hsplit⟩ : ∃ opening, standalone a = opening ++ .line "impl KeywordDFA \x7b" ::
      ([.indented (check ++ (between ++ consume a))] ++
        .line "\x7d" :: .line "" :: stateFunctions a) :=
    ⟨(standalone a).take 10, by simp [standalone, between]⟩
  have hplain := arePlain_standalone a
  rw [hsplit, arePlain_append, Bool.and_eq_true] at hplain
  have hmethods : arePlain [.indented (check ++ (between ++ consume a))] := by
    simp [between, arePlain_check, arePlain_consume]
  have hbetween : text between = "\n#[inline(always)]\n".toList := by
    simp only [text, between, toList_text_line, place_zero]
    rfl
  have hfeed : AllLines (fun text ↦ '\n' ∉ text.toList) between := by
    simp [between]
  have hbody : (print width 1 (check ++ (between ++ consume a))).text.toList =
      deeper (text check) ++ (deeper (text between) ++ deeper (text (consume a))) := by
    rw [toList_text_append arePlain_check, toList_text_append rfl,
      text_print_one arePlain_check (Part.unbroken_part a .check (by decide)),
      text_print_one rfl hfeed,
      text_print_one (arePlain_consume a) (Part.unbroken_part a .consume (by decide))]
  refine ⟨opening, ?_⟩
  simp only [text]
  rw [hsplit, toList_text_append hplain.1, toList_text_line, toList_text_append hmethods,
    toList_text_indented, hbody, hbetween, toList_text_line, toList_text_line, place_zero,
    place_zero, place_empty]
  simp [text]

end Code

namespace Builder

open Code Layout

/-- After any history, at any width, the code of the machine alone is cut into its block, the method
that takes a character, and the functions of the states. A complete module has them both: each line
of the block one level deeper, in the implementation, behind the method that checks, a blank line
and an attribute; and the functions as they are, at the end. Only tests follow them, behind a blank
line, and only where no word is in conflict. -/
theorem module_after (events : List Event) (width : Int) :
    let a := (after events).automaton
    let text (steps : List Step) := (print width 0 steps).text.toList
    let deeper := mapLines (indented width.toNat)
    ∃ block functions : List Char,
      cutBlock (render a .machine width).toList = (block, functions) ∧
      (render a .machine width).toList = block ++ functions ∧
      block = text (consume a) ∧
      functions = a.interior.flatMap (fun q : State ↦ text (stateFunction a q a.stateType.name)) ∧
      (∃ opening : List Step, (render a (.standalone false) width).toList =
        text opening ++ "impl KeywordDFA \x7b\n".toList ++ deeper (text check) ++
          deeper "\n#[inline(always)]\n".toList ++ deeper block ++ "\x7d\n\n".toList ++
          functions) ∧
      (render a (.standalone true) width).toList = (render a (.standalone false) width).toList ++
        if a.conflicts = [] then '\n' :: text (tests a) else [] := by
  intro a text deeper
  refine ⟨text (consume a), text (stateFunctions a), cutBlock_machine a width, ?_, rfl,
    toList_text_functions a width, toList_text_standalone a width, ?_⟩
  · exact toList_text_append (arePlain_consume a)
  · by_cases hc : a.conflicts = []
    · have hsteps : steps a (.standalone true) = standalone a ++ .line "" :: tests a := if_pos hc
      rw [if_pos hc, render, hsteps, toList_text_append (arePlain_standalone a), toList_text_line,
        place_empty]
      rfl
    · rw [if_neg hc, render, withTests_of_conflict hc, List.append_nil]
      rfl

end Builder

end Recognizer
