/-!
Hexadecimal numbers in lower case, and the escape of a character by its code point, as wide as the
code point asks: `\xNN`, `\uNNNN` or `\UNNNNNNNN`.
-/

namespace Recognizer.Text

def hex (n : Nat) : List Char := Nat.toDigits 16 n

def paddedHex (width n : Nat) : List Char := (hex n).leftpad width '0'

def codeEscape (c : Char) : List Char :=
  if c.toNat < 0x100 then '\\' :: 'x' :: paddedHex 2 c.toNat
  else if c.toNat < 0x10000 then '\\' :: 'u' :: paddedHex 4 c.toNat
  else '\\' :: 'U' :: paddedHex 8 c.toNat

end Recognizer.Text
