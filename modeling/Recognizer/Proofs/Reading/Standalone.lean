import Recognizer.Code.Standalone
import Recognizer.Proofs.Reading.Machine
import Recognizer.Proofs.Reading.Tests
/-!
Complete modules read back: the driver, the same machine as without one, and the assertions where
there are tests. Main statement: what any form of the code is read as.
-/

namespace Recognizer.Code

open Reader

theorem tokens_accept : tokensIn s!"if next_state == {State.final} \x7b" =
    tokensIn "if next_state ==" ++ .number State.final :: tokensIn "\x7b" := by
  rfl

theorem tokens_reject : tokensIn s!"\x7d else if next_state == {State.fail} \x7b" =
    tokensIn "\x7d else if next_state ==" ++ .number State.fail :: tokensIn "\x7b" := by
  rfl

theorem reads_check : Reads Reader.check (tokensOf check) (State.final, State.fail) := by
  intro rest
  simp only [check, tokensOf_line, tokensOf_indented, tokensOf_nil, tokens_accept,
    tokens_reject, tokensIn_empty_append, List.append_assoc, List.cons_append, List.append_nil,
    Reader.check, run_expect_bind, run_number_bind, run_pure_eq]

theorem tokens_start : tokensIn s!"let mut dfa = KeywordDFA \x7b state: {State.start} \x7d;" =
    tokensIn "let mut dfa = KeywordDFA \x7b state:" ++ .number State.start :: tokensIn "\x7d;" := by
  rfl

theorem tokens_field (type : StateType) : tokensIn s!"state: {type.name}," =
    tokensIn "state:" ++ .name type.name.toList :: tokensIn "," := by
  have htext : s!"state: {type.name},".toList =
      "state: ".toList ++ (type.name.toList ++ ",".toList) := by
    rw [String.toList_append, String.toList_append, List.append_assoc]
    rfl
  have hstate : Scan.between.run "state: ".toList = (.between, tokensIn "state:") := by rfl
  rw [tokensIn, htext, tokens_append hstate, tokens_type type rfl]
  rfl

def driverOf (a : Blueprint) : Driver :=
  ⟨State.start, State.final, State.fail, a.stateType.name.toList⟩

theorem run_standalone (a : Blueprint) {rest : List Token} {found : Option (List Assertion)}
    (hend : function.run rest = none)
    (hfound : (unlessEnd Reader.tests).run rest = some (found, [])) :
    Reader.standalone.run (tokensOf (standalone a) ++ rest) =
      some (⟨some (driverOf a), machineOf a, found⟩, []) := by
  simp only [standalone, tokensOf_line, tokensOf_indented, tokensOf_append, tokensOf_nil,
    tokens_start, tokens_field, List.append_nil]
  simp only [tokensIn_empty_append, List.append_assoc, List.cons_append, Reader.standalone,
    run_expect_bind, run_number_bind, run_name_bind, reads_check.run_bind,
    (reads_consume a).run_bind, run_bind_of_some (run_functions a hend), run_bind_of_some hfound,
    run_pure_eq]
  rfl

theorem arePlain_check : Layout.arePlain check := by
  simp [check]

theorem arePlain_standalone (a : Blueprint) : Layout.arePlain (standalone a) := by
  simp [standalone, arePlain_check, arePlain_consume, arePlain_stateFunctions]

theorem arePlain_tests (a : Blueprint) : Layout.arePlain (tests a) := by
  have hkeywords := Layout.arePlain_map (f := fun w : Word ↦ .line (stringLiteral w ++ ","))
    (fun _ ↦ rfl) a.words.eraseDups
  have hstarts := Layout.arePlain_map
    (f := fun w : Word ↦ assertion (w ++ suffix) s!"Some({w.length})") (fun _ ↦ rfl)
    a.words.eraseDups
  have hothers := Layout.arePlain_map (f := fun w : Word ↦ assertion w "None") (fun _ ↦ rfl)
    (nonKeyword? a).toList
  have hempty (more : List Step) :
      Layout.arePlain (assertion [] "None" :: more) = Layout.arePlain more := rfl
  simpa [tests, keywordTest, startTest, nonKeywordTest, hempty] using
    ⟨hkeywords, hstarts, hothers⟩

/-- What an automaton's code is read as, in each form. -/
def sourceOf (a : Blueprint) : Form → Source
  | .machine => ⟨none, machineOf a, none⟩
  | .standalone tests => ⟨some (driverOf a), machineOf a,
      if tests = true ∧ a.conflicts = [] then some (assertionsOf a) else none⟩

theorem run_withoutTests (a : Blueprint) : Reader.standalone.run (tokensOf (standalone a)) =
    some (⟨some (driverOf a), machineOf a, none⟩, []) := by
  have hfound : (unlessEnd Reader.tests).run [] = some (none, []) := rfl
  have h := run_standalone a run_function_nil hfound
  rwa [List.append_nil] at h

theorem run_withTests (a : Blueprint) :
    Reader.standalone.run (tokensOf (standalone a ++ .line "" :: tests a)) =
      some (⟨some (driverOf a), machineOf a, some (assertionsOf a)⟩, []) := by
  have hstart : ∃ us, tokensOf (tests a) = tokensIn "#[cfg(test)]" ++ us := ⟨_, tokensOf_line _ _⟩
  obtain ⟨us, hus⟩ := hstart
  have hend : function.run (tokensOf (tests a)) = none := by
    rw [hus]
    exact Rejects.bind (rejects_expect 2 (by decide)) _ us
  have hfound : (unlessEnd Reader.tests).run (tokensOf (tests a)) =
      some (some (assertionsOf a), []) := by
    have hne : tokensOf (tests a) ≠ [] := by
      have hcfg : tokensIn "#[cfg(test)]" ≠ [] := by decide
      simp [hus, hcfg]
    have hrun : (some <$> Reader.tests).run (tokensOf (tests a)) =
        some (some (assertionsOf a), []) := by
      rw [StateT.run_map, (reads_tests a).run_end]
      rfl
    rwa [StateT.run, unlessEnd, if_neg hne]
  rw [tokensOf_append, tokensOf_line, tokensIn_empty_append]
  exact run_standalone a hend hfound

theorem rejects_machine (a : Blueprint) : Rejects Reader.machine (tokensOf (standalone a)) := by
  intro rest
  have hstart : ∃ us, tokensOf (standalone a) = tokensIn "use std::iter::Iterator;" ++ us :=
    ⟨_, tokensOf_line _ _⟩
  obtain ⟨us, hus⟩ := hstart
  have hconsume : Rejects Reader.consume (tokensIn "use std::iter::Iterator;") :=
    Rejects.bind (rejects_expect 0 (by decide)) _
  rw [hus, List.append_assoc]
  exact run_bind_eq_none (hconsume (us ++ rest)) _

theorem run_steps (a : Blueprint) (form : Form) :
    (Reader.machine <|> Reader.standalone).run (tokensOf (steps a form)) =
      some (sourceOf a form, []) := by
  cases form with
  | machine => exact run_orElse_left (run_machine a)
  | standalone withTests =>
    have hreject := rejects_machine a
    have hwithout : (Reader.machine <|> Reader.standalone).run (tokensOf (standalone a)) =
        some (⟨some (driverOf a), machineOf a, none⟩, []) := by
      rw [run_orElse_right hreject.run_end, run_withoutTests]
    cases withTests with
    | false => exact hwithout
    | true =>
      by_cases hc : a.conflicts = []
      · have hsteps : steps a (.standalone true) = standalone a ++ .line "" :: tests a := if_pos hc
        have h : Reader.machine.run (tokensOf (standalone a ++ .line "" :: tests a)) = none := by
          rw [tokensOf_append]
          exact hreject _
        rw [hsteps, run_orElse_right h, run_withTests, sourceOf, if_pos ⟨rfl, hc⟩]
      · rw [withTests_of_conflict hc, sourceOf, if_neg fun h ↦ hc h.2]
        exact hwithout

theorem arePlain_steps (a : Blueprint) (form : Form) : Layout.arePlain (steps a form) := by
  cases form with
  | machine => exact arePlain_machine a
  | standalone withTests =>
    cases withTests with
    | false => exact arePlain_standalone a
    | true =>
      simp only [steps, Code.withTests]
      split
      · simp [arePlain_standalone, arePlain_tests]
      · exact arePlain_standalone a

theorem read?_render (a : Blueprint) (form : Form) (width : Int) :
    read? (render a form width) = some (sourceOf a form) :=
  read?_print (arePlain_steps a form) (run_steps a form) width 0

/-- The tests alone are read as the assertions, also those that a module would leave out. -/
theorem read?_tests (a : Blueprint) (width : Int) :
    Reader.tests.read? (Layout.print width 0 (tests a)).text = some (assertionsOf a) :=
  read?_print (arePlain_tests a) (reads_tests a).run_end width 0

end Recognizer.Code
