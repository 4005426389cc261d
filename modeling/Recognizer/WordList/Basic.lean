import Recognizer.Automaton.Basic
import Recognizer.Text.Lines
import Recognizer.WordList.Illustration
/-!
Word lists: one word a line. Blank lines, and lines whose first word begins with `#`, hold none; two
words in one line are a fault.
-/

namespace Recognizer.WordList

/-- A longest stretch of characters that are not blank, and the column where it begins. -/
structure Run where
  column : Nat
  text : Word

theorem length_dropWhile_le (p : Char → Bool) (s : List Char) :
    (s.dropWhile p).length ≤ s.length := (List.dropWhile_suffix p).length_le

/-- The runs of a line, whose first character stands in the column given. -/
def runsFrom (column : Nat) (line : List Char) : List Run :=
  match _ : line.dropWhile Text.isBlank with
  | [] => []
  | c :: rest =>
    let start := column + (line.takeWhile Text.isBlank).length
    let text := c :: rest.takeWhile (!Text.isBlank ·)
    ⟨start, text⟩ :: runsFrom (start + text.length) (rest.dropWhile (!Text.isBlank ·))
termination_by line.length
decreasing_by
  have h := length_dropWhile_le Text.isBlank line
  have hr := length_dropWhile_le (!Text.isBlank ·) rest
  simp_all only [List.length_cons]
  omega

def runs (line : List Char) : List Run := runsFrom 0 line

structure Fault where
  /-- Counted from one. -/
  row : Nat
  line : List Char
  extra : Run

def Fault.message (file : Option String) (f : Fault) : String :=
  complaint file f.row f.extra.column f.extra.text.length f.line "Expected one keyword per line."

def parseLine (row : Nat) (line : List Char) : Except Fault (Option Word) :=
  match runs line with
  | [] => .ok none
  | first :: others =>
    if first.text.head? = some '#' then .ok none
    else match others with
      | [] => .ok (some first.text)
      | extra :: _ => .error ⟨row, line, extra⟩

/-- The words of lines, the first of which has the number given, or the fault in the first line that
has one. -/
def parseLines (row : Nat) : List (List Char) → Except Fault (List Word)
  | [] => .ok []
  | line :: lines => match parseLine row line with
    | .error fault => .error fault
    | .ok word => (parseLines (row + 1) lines).map (word.toList ++ ·)

def parse (text : List Char) : Except Fault (List Word) := parseLines 1 (Text.splitLines text)

theorem runsFrom_of_dropWhile_nil {column : Nat} {line : List Char}
    (h : line.dropWhile Text.isBlank = []) : runsFrom column line = [] := by
  unfold runsFrom
  split <;> simp_all

theorem runsFrom_of_dropWhile_cons {column : Nat} {line : List Char} {c : Char} {rest : List Char}
    (h : line.dropWhile Text.isBlank = c :: rest) :
    runsFrom column line =
      let start := column + (line.takeWhile Text.isBlank).length
      let text := c :: rest.takeWhile (!Text.isBlank ·)
      ⟨start, text⟩ :: runsFrom (start + text.length) (rest.dropWhile (!Text.isBlank ·)) := by
  rw [runsFrom.eq_def]
  split <;> simp_all

end Recognizer.WordList
