import Recognizer.Text.Quoted
/-!
Plain data of any shape: what is offered as a word, and what a cell of a grid holds.
-/

namespace Recognizer

/-- Texts hold Unicode scalar values; one with a lone surrogate in it is no value here. -/
inductive Value
  | text (s : String)
  | number (n : Int)
  | truth (b : Bool)
  | nothing
  | list (values : List Value)

namespace Value

mutual

/-- The value as messages show it, texts in quotes. -/
def quoted : Value → String
  | .text s => Text.quoted s.toList
  | .number n => toString n
  | .truth b => if b then "True" else "False"
  | .nothing => "None"
  | .list values => "[" ++ String.intercalate ", " (quotedAll values) ++ "]"

def quotedAll : List Value → List String
  | [] => []
  | v :: values => v.quoted :: quotedAll values

end

def plain : Value → String
  | .text s => s
  | v => v.quoted

def kind : Value → String
  | .text _ => "str"
  | .number _ => "int"
  | .truth _ => "bool"
  | .nothing => "NoneType"
  | .list _ => "list"

def char? : Value → Option Char
  | .text s => match s.toList with
    | [c] => some c
    | _ => none
  | _ => none

@[simp] theorem char?_singleton (c : Char) : (text (.ofList [c])).char? = some c := by
  simp [char?]

end Value

end Recognizer
