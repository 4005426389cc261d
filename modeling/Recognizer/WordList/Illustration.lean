import Recognizer.Text.Blank
/-!
Pictures of where something stands in a line: the line, and below it carets under the place. Main
statement: what leads to the carets is as long as what stands before the place.
-/

namespace Recognizer.WordList

/-- The part of a line before a column; a negative column counts from the end of the line. -/
def before (line : List Char) (column : Int) : List Char :=
  line.take (if column < 0 then line.length + column else column).toNat

/-- Tabs stay, so that what follows lines up; all else becomes a space. -/
def blanked (s : List Char) : List Char := s.map fun c ↦ if c = '\t' then c else ' '

/-- As many as fit below the line, but at least one. -/
def carets (line : List Char) (column width : Int) : List Char :=
  List.replicate (max 1 (min width (line.length - column))).toNat '^'

def illustrate (line : List Char) (column width : Int) (lead caption : List Char) : String :=
  .ofList (lead ++ Text.trimEnd line ++ '\n' :: blanked (lead ++ before line column) ++
    carets line column width ++ ' ' :: caption)

def place (file : Option String) : String :=
  match file with
  | none => "At"
  | some name => name ++ ":"

/-- A message with its place, columns counted from one, and the picture of it. -/
def complaint (file : Option String) (row column width : Int) (line : List Char)
    (message : String) : String :=
  let place := place file
  let shown := illustrate line column width " >>> ".toList "near here".toList
  s!"{place} line {row}, column {column + 1}: {message}\n{shown}"

@[simp] theorem length_blanked (s : List Char) : (blanked s).length = s.length := by
  simp [blanked]

theorem before_natCast (line : List Char) (column : Nat) :
    before line column = line.take column := by
  simp [before, show ¬ (column : Int) < 0 by omega]

end Recognizer.WordList
