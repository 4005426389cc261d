import Recognizer.Code.Machine
import Recognizer.Code.Tests
import Recognizer.Warning
/-!
A complete Rust module: a driver that counts the characters up to the final state, around the code
of the automaton, and its tests where they can hold.
-/

namespace Recognizer.Code

def check : List Step :=
  [.line "fn check<I: Iterator<Item = char>>(&mut self, iter: I) -> Option<usize> \x7b",
    .indented [
      .line "let mut consumed = 0;",
      .line "",
      .line "for c in iter \x7b",
      .indented [
        .line "if self.consume(c) \x7b",
        .indented [.line "consumed += 1;"],
        .line "\x7d",
        .line "",
        .line "let next_state = self.state;",
        .line "",
        .line s!"if next_state == {State.final} \x7b",
        .indented [.line "return Some(consumed);"],
        .line s!"\x7d else if next_state == {State.fail} \x7b",
        .indented [.line "return None;"],
        .line "\x7d"],
      .line "\x7d",
      .line "",
      .line "None"],
    .line "\x7d"]

def standalone (a : Blueprint) : List Step :=
  let type := a.stateType.name
  [.line "use std::iter::Iterator;",
    .line "",
    .line "pub fn match_keyword<I: Iterator<Item = char>>(chars: I) -> Option<usize> \x7b",
    .indented [
      .line s!"let mut dfa = KeywordDFA \x7b state: {State.start} \x7d;",
      .line "",
      .line "dfa.check(chars)"],
    .line "\x7d",
    .line "",
    .line "struct KeywordDFA \x7b",
    .indented [.line s!"state: {type},"],
    .line "\x7d",
    .line "",
    .line "impl KeywordDFA \x7b",
    .indented (check ++ [.line "", .line "#[inline(always)]"] ++ consume a),
    .line "\x7d",
    .line ""] ++ stateFunctions a

def withTests (a : Blueprint) : List Step :=
  if a.conflicts = [] then standalone a ++ .line "" :: tests a else standalone a

def testWarnings (a : Blueprint) : List Warning :=
  if a.conflicts = [] then [] else [.testsLeftOut a.conflicts]

inductive Form
  | machine
  | standalone (withTests : Bool)
deriving DecidableEq

def steps (a : Blueprint) : Form → List Step
  | .machine => machine a
  | .standalone false => standalone a
  | .standalone true => withTests a

def warnings (a : Blueprint) : Form → List Warning
  | .standalone true => testWarnings a
  | _ => []

def render (a : Blueprint) (form : Form) (width : Int) : String :=
  (Layout.print width 0 (steps a form)).text

theorem withTests_of_conflict {a : Blueprint} (h : a.conflicts ≠ []) :
    steps a (.standalone true) = steps a (.standalone false) := by
  simp [steps, withTests, h]

end Recognizer.Code
