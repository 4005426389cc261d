import Recognizer.Text.Ranges
/-!
White space: the separators of Unicode, the controls that act as such, and no zero-width character.
-/

namespace Recognizer.Text

def blanks : List (Nat × Nat) :=
  [(0x9, 0xd), (0x1c, 0x20), (0x85, 0x85), (0xa0, 0xa0), (0x1680, 0x1680), (0x2000, 0x200a),
    (0x2028, 0x2029), (0x202f, 0x202f), (0x205f, 0x205f), (0x3000, 0x3000)]

def isBlank (c : Char) : Bool := inRanges c.toNat blanks

def trimEnd : List Char → List Char
  | [] => []
  | c :: s => match trimEnd s with
    | [] => if isBlank c then [] else [c]
    | t => c :: t

end Recognizer.Text
