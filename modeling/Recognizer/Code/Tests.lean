import Recognizer.Code.Literal
import Recognizer.Code.Blueprint
import Recognizer.Layout
/-!
Tests drawn from the words of an automaton: each word is recognized, also with more text behind it,
and a text that starts with no word is not.
-/

namespace Recognizer.Code

/-- Characters that may begin an identifier or a number, but rarely a keyword. -/
def leads : List Char := "0123456789_$@".toList

def suffix : Word := ['_', 'x', '1']

/-- A text that begins like no word, if there is a word to build it from. -/
def nonKeyword? (a : Blueprint) : Option Word :=
  match leads.filter (fun c ↦ a.transition State.start (.ofList [c]) = State.fail), a.words with
  | c :: _, w :: _ => some (c :: w)
  | _, _ => none

def assertion (text : Word) (result : String) : Step :=
  let text := stringLiteral text
  .line s!"assert_eq!(match_keyword({text}.chars()), {result});"

def keywordTest (words : List Word) : List Step :=
  [.line "#[test]",
    .line "fn test_all_keywords() \x7b",
    .indented [
      .line "let keywords = vec![",
      .indented (words.map fun w ↦ .line (stringLiteral w ++ ",")),
      .line "];",
      .line "for kw in keywords \x7b",
      .indented [
        .line "assert_eq!(match_keyword(kw.chars()), Some(kw.chars().count()));"],
      .line "\x7d"],
    .line "\x7d"]

def startTest (words : List Word) : List Step :=
  [.line "#[test]",
    .line "fn test_start_with_keyword() \x7b",
    .indented (words.map fun w ↦
      let count := w.length
      assertion (w ++ suffix) s!"Some({count})"),
    .line "\x7d"]

def nonKeywordTest (a : Blueprint) : List Step :=
  [.line "#[test]",
    .line "fn test_non_keywords() \x7b",
    .indented (assertion [] "None" :: (nonKeyword? a).toList.map fun w ↦ assertion w "None"),
    .line "\x7d"]

def tests (a : Blueprint) : List Step :=
  let words := a.words.eraseDups
  [.line "#[cfg(test)]",
    .line "mod tests \x7b",
    .indented ([.line "use super::*;", .line ""] ++ keywordTest words ++ [.line ""] ++
      startTest words ++ [.line ""] ++ nonKeywordTest a),
    .line "\x7d"]

end Recognizer.Code
