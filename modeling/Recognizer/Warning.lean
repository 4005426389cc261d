import Recognizer.Automaton.Basic
import Recognizer.Value
/-!
Warnings: what goes on although a word will not be recognized by itself.
-/

namespace Recognizer

inductive Warning
  /-- A word runs into another one after some symbols. -/
  | conflict (word : Word) (depth : Nat)
  /-- Tests would fail for these words, so none are written. -/
  | testsLeftOut (conflicts : List Word)
deriving DecidableEq

def Warning.message : Warning → String
  | .conflict word depth =>
    let word := Text.quoted word
    s!"Keyword {word} conflicts with a prefix-related keyword after {depth} character(s); " ++
      "it will not be recognized by itself."
  | .testsLeftOut conflicts =>
    let conflicts := (Value.list (conflicts.map fun w ↦ .text (.ofList w))).quoted
    s!"Leaving out generated tests: prefix conflicts among {conflicts}."

end Recognizer
