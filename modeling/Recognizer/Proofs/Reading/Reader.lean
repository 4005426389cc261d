import Recognizer.Proofs.Reading.Lines
import Recognizer.Proofs.Reading.Program
/-!
Readers of tokens, and the code that they read: the lines of the source in order, with what varies
between them. Nothing else is accepted, and nothing may be left over.
-/

namespace Recognizer.Code

abbrev Reader (α : Type) := StateT (List Token) Option α

namespace Reader

/-- The tokens of a piece of code. -/
def expect (code : String) : Reader Unit := fun ts ↦
  let us := tokensIn code
  if us <+: ts then some ((), ts.drop us.length) else none

def name : Reader (List Char)
  | .name s :: ts => some (s, ts)
  | _ => none

def number : Reader Nat
  | .number n :: ts => some (n, ts)
  | _ => none

def character : Reader Char
  | .character c :: ts => some (c, ts)
  | _ => none

def text : Reader (List Char)
  | .text s :: ts => some (s, ts)
  | _ => none

def repeated {α : Type} (p : Reader α) (ts : List Token) : Option (List α × List Token) :=
  match p.run ts with
  | none => some ([], ts)
  | some (x, rest) =>
    if rest.length < ts.length then (repeated p rest).map fun y ↦ (x :: y.1, y.2) else none
termination_by ts.length

/-- As often as it goes, and each time forward. -/
def many {α : Type} (p : Reader α) : Reader (List α) := repeated p

/-- Nothing at the end of the code. -/
def unlessEnd {α : Type} (p : Reader α) : Reader (Option α) := fun ts ↦
  if ts = [] then some (none, []) else (some <$> p).run ts

def action : Reader Action := do
  let s ← name
  if s = ['r', 'e', 't', 'u', 'r', 'n'] then
    expect "false,"
    pure .refuse
  else
    expect "(t),"
    pure (.call s)

def dispatchArm : Reader (Nat × Action) := do
  let q ← number
  expect "=>"
  let action ← action
  pure (q, action)

def consume : Reader (List (Nat × Action)) := do
  expect "fn consume(&mut self, t: char) -> bool \x7b"
  expect "let next_state = match self.state \x7b"
  let arms ← many dispatchArm
  expect "_ => unreachable!(),"
  expect "\x7d;"
  expect "self.state = next_state;"
  expect "true"
  expect "\x7d"
  pure arms

def arm : Reader (Char × Nat) := do
  let c ← character
  expect "=>"
  let q ← number
  expect ","
  pure (c, q)

def function : Reader Function := do
  expect "#[inline(always)]"
  expect "fn"
  let f ← name
  expect "(t: char) ->"
  let type ← name
  expect "\x7b"
  expect "match t \x7b"
  let arms ← many arm
  expect "_ =>"
  let default ← number
  expect ","
  expect "\x7d"
  expect "\x7d"
  pure ⟨f, type, arms, default⟩

def machine : Reader Source := do
  let dispatch ← consume
  let functions ← many function
  pure ⟨none, ⟨dispatch, functions⟩, none⟩

/-- The states that it accepts and rejects in. -/
def check : Reader (Nat × Nat) := do
  expect "fn check<I: Iterator<Item = char>>(&mut self, iter: I) -> Option<usize> \x7b"
  expect "let mut consumed = 0;"
  expect "for c in iter \x7b"
  expect "if self.consume(c) \x7b"
  expect "consumed += 1;"
  expect "\x7d"
  expect "let next_state = self.state;"
  expect "if next_state =="
  let accept ← number
  expect "\x7b"
  expect "return Some(consumed);"
  expect "\x7d else if next_state =="
  let reject ← number
  expect "\x7b"
  expect "return None;"
  expect "\x7d"
  expect "\x7d"
  expect "None"
  expect "\x7d"
  pure (accept, reject)

def expected : Reader (Option Nat) := do
  let s ← name
  if s = ['N', 'o', 'n', 'e'] then pure none
  else if s = ['S', 'o', 'm', 'e'] then
    expect "("
    let n ← number
    expect ")"
    pure (some n)
  else failure

def assertion : Reader Assertion := do
  expect "assert_eq!(match_keyword("
  let text ← text
  expect ".chars()),"
  let expected ← expected
  expect ");"
  pure ⟨text, expected⟩

/-- A word that is expected to match at its own length. -/
def keyword : Reader Assertion := do
  let text ← text
  expect ","
  pure ⟨text, some text.length⟩

def tests : Reader (List Assertion) := do
  expect "#[cfg(test)]"
  expect "mod tests \x7b"
  expect "use super::*;"
  expect "#[test]"
  expect "fn test_all_keywords() \x7b"
  expect "let keywords = vec!["
  let keywords ← many keyword
  expect "];"
  expect "for kw in keywords \x7b"
  expect "assert_eq!(match_keyword(kw.chars()), Some(kw.chars().count()));"
  expect "\x7d"
  expect "\x7d"
  expect "#[test]"
  expect "fn test_start_with_keyword() \x7b"
  let starts ← many assertion
  expect "\x7d"
  expect "#[test]"
  expect "fn test_non_keywords() \x7b"
  let others ← many assertion
  expect "\x7d"
  expect "\x7d"
  pure (keywords ++ starts ++ others)

def standalone : Reader Source := do
  expect "use std::iter::Iterator;"
  expect "pub fn match_keyword<I: Iterator<Item = char>>(chars: I) -> Option<usize> \x7b"
  expect "let mut dfa = KeywordDFA \x7b state:"
  let start ← number
  expect "\x7d;"
  expect "dfa.check(chars)"
  expect "\x7d"
  expect "struct KeywordDFA \x7b"
  expect "state:"
  let type ← name
  expect ","
  expect "\x7d"
  expect "impl KeywordDFA \x7b"
  let (accept, reject) ← check
  expect "#[inline(always)]"
  let dispatch ← consume
  expect "\x7d"
  let functions ← many function
  let assertions ← unlessEnd tests
  pure ⟨some ⟨start, accept, reject, type⟩, ⟨dispatch, functions⟩, assertions⟩

end Reader

/-- The whole of the tokens, by this reader. -/
def Reader.read? {α : Type} (p : Reader α) (code : String) : Option α :=
  match p.run (tokensIn code) with
  | some (x, []) => some x
  | _ => none

def read? (code : String) : Option Source := (Reader.machine <|> Reader.standalone).read? code

end Recognizer.Code
