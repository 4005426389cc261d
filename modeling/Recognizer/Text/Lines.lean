/-!
Lines of a text, by every break that Unicode texts use, and the unification of the breaks that
files use. Main statement: a text of one line without breaks is cut off at the break after it.
-/

namespace Recognizer.Text

def isBreak (c : Char) : Bool :=
  c ∈ ['\n', '\r', '\x0b', '\x0c', '\x1c', '\x1d', '\x1e', '\x85', '\u2028', '\u2029']

/-- A carriage return and a line feed together are one break. A break at the very end opens no
further line. -/
def splitLines : List Char → List (List Char)
  | [] => []
  | '\r' :: '\n' :: s => [] :: splitLines s
  | c :: s =>
    if isBreak c then [] :: splitLines s
    else match splitLines s with
      | [] => [[c]]
      | line :: lines => (c :: line) :: lines

/-- Carriage returns, alone or before a line feed, become line feeds. -/
def unifyBreaks : List Char → List Char
  | [] => []
  | '\r' :: '\n' :: s => '\n' :: unifyBreaks s
  | '\r' :: s => '\n' :: unifyBreaks s
  | c :: s => c :: unifyBreaks s

theorem splitLines_cons {c : Char} {s : List Char} (h : isBreak c = false) :
    splitLines (c :: s) = match splitLines s with
      | [] => [[c]]
      | line :: lines => (c :: line) :: lines := by
  rw [splitLines, if_neg (by simp [h])]
  rintro _ rfl _
  simp [isBreak] at h

theorem splitLines_feed (s : List Char) : splitLines ('\n' :: s) = [] :: splitLines s := by
  rw [splitLines, if_pos (by decide)]
  simp

theorem splitLines_line {line : List Char} (h : ∀ c ∈ line, isBreak c = false) (s : List Char) :
    splitLines (line ++ '\n' :: s) = line :: splitLines s := by
  induction line with
  | nil => exact splitLines_feed s
  | cons c line ih =>
    rw [List.cons_append, splitLines_cons (h c (by simp)),
      ih fun d hd ↦ h d (by simp [hd])]

end Recognizer.Text
