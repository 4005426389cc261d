import Recognizer.Builder
import Recognizer.Code.Standalone
/-!
The keywords of the language Lox, and the recognizer for them. Main statement: no keyword conflicts
with another.
-/

namespace Recognizer.Lox

def keywords : List String :=
  ["and", "class", "else", "false", "for", "fun", "if", "nil",
    "or", "print", "return", "super", "this", "true", "var", "while"]

def automaton : Automaton := (keywords.map String.toList).foldl Automaton.insert .empty

def recognizer : String := Code.render automaton (.standalone true) 4

theorem conflicts_automaton : automaton.conflicts = [] := by decide +kernel

end Recognizer.Lox
