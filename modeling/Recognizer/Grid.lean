import Recognizer.Value
/-!
Grids of text, drawn with box lines: columns are as wide as their widest cell, cells stand to the
right, and a divider follows the heading and every fifth row after it. Main statement: a grid is
refused exactly when it has no row or rows of different lengths.
-/

namespace Recognizer.Grid

/-- The lengths of rows that do not form a grid. -/
structure Uneven where
  lengths : List Nat

def Uneven.message (u : Uneven) : String :=
  (Value.list (u.lengths.map fun n : Nat ↦ .number n)).quoted

def widths : List (List String) → List Nat
  | [] => []
  | [row] => row.map String.length
  | row :: rows => List.zipWith max (row.map String.length) (widths rows)

def rule (junction : String) (widths : List Nat) : String :=
  String.intercalate junction (widths.map fun n ↦ .ofList (List.replicate n '─'))

def justify (width : Nat) (cell : String) : String := .ofList (cell.toList.leftpad width ' ')

def rowLine (widths : List Nat) (row : List String) : String :=
  String.intercalate " │ " (List.zipWith justify widths row)

def bodyLines (widths : List Nat) (row : List String) (index : Nat) : List String :=
  if index % 5 = 1 then [rule "─┼─" widths, rowLine widths row] else [rowLine widths row]

def lines (rows : List (List String)) : List String :=
  let columns := widths rows
  rule "─┬─" columns :: rows.zipIdx.flatMap (fun r ↦ bodyLines columns r.1 r.2) ++
    [rule "─┴─" columns]

def draw (rows : List (List String)) : String :=
  String.join ((lines rows).map (· ++ "\n"))

def isEven : List (List String) → Bool
  | [] => false
  | row :: rows => rows.all (·.length = row.length)

def print (rows : List (List String)) : Except Uneven String :=
  if isEven rows then .ok (draw rows) else .error ⟨rows.map List.length⟩

theorem isEven_iff {rows : List (List String)} :
    isEven rows ↔ ∃ n, rows ≠ [] ∧ ∀ row ∈ rows, row.length = n := by
  cases rows with
  | nil => simp [isEven]
  | cons row rows => simp [isEven]

theorem print_eq_ok {rows : List (List String)} (h : isEven rows) :
    print rows = .ok (draw rows) := by
  simp [print, h]

theorem length_justify (width : Nat) (cell : String) :
    (justify width cell).length = max width cell.length := by
  simp only [justify, String.length_ofList, List.leftpad, List.length_append,
    List.length_replicate, String.length_toList]
  omega

end Recognizer.Grid
