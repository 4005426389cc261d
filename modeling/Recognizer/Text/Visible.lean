import Recognizer.Text.Blank
import Recognizer.Text.Hex
import Recognizer.Text.Printable
/-!
Text that can be seen: visible characters stand for themselves, a blank or a control alone is shown
by its code point. Main statement: `showing?` is total on single characters, where it is `visible`.
-/

namespace Recognizer.Text

def visible (c : Char) : String :=
  if isPrintable c && !isBlank c then .ofList [c] else .ofList (codeEscape c)

/-- A whole text shows as itself if all of it is printable and some of it is not blank. There is no
code point to show for any other text, unless it is a single character; the empty text is itself. -/
def showing? (s : List Char) : Option String :=
  if s.all isPrintable && (s.isEmpty || s.any (!isBlank ·)) then some (.ofList s)
  else match s with
    | [c] => some (.ofList (codeEscape c))
    | _ => none

theorem showing?_singleton (c : Char) : showing? [c] = some (visible c) := by
  cases hp : isPrintable c <;> cases hb : isBlank c <;>
    simp [showing?, visible, hp, hb]

end Recognizer.Text
