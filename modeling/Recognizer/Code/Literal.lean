import Recognizer.Text.Hex
import Recognizer.Text.Printable
/-!
Character and string literals of Rust. Main statement: escaping goes character by character.
-/

namespace Recognizer.Code

/-- One character inside a literal that `quote` delimits; a quote of several characters, or of none,
is no character and never occurs. -/
def escapeChar (quote : List Char) (c : Char) : List Char :=
  if [c] = quote then ['\\', c]
  else match c with
    | '\\' => ['\\', '\\']
    | '\n' => ['\\', 'n']
    | '\r' => ['\\', 'r']
    | '\t' => ['\\', 't']
    | '\x00' => ['\\', '0']
    | _ =>
      if Text.isPrintable c then [c]
      else '\\' :: 'u' :: '\x7b' :: Text.hex c.toNat ++ ['\x7d']

def escape (quote s : List Char) : List Char := s.flatMap (escapeChar quote)

def charLiteral (s : List Char) : String := .ofList ('\'' :: escape ['\''] s ++ ['\''])

def stringLiteral (s : List Char) : String := .ofList ('"' :: escape ['"'] s ++ ['"'])

@[simp] theorem escape_nil (quote : List Char) : escape quote [] = [] := rfl

theorem escape_cons (quote : List Char) (c : Char) (s : List Char) :
    escape quote (c :: s) = escapeChar quote c ++ escape quote s := rfl

theorem escape_append (quote s t : List Char) :
    escape quote (s ++ t) = escape quote s ++ escape quote t := List.flatMap_append

end Recognizer.Code
