import Recognizer.Text.Hex
import Recognizer.Text.Printable
/-!
Quoted text, as messages show it: between apostrophes, or between double quotes where the text holds
an apostrophe and no double quote, with the quote in use, backslashes and unprintable characters
escaped.
-/

namespace Recognizer.Text

def quoteFor (s : List Char) : Char :=
  if '\'' ∈ s ∧ '"' ∉ s then '"' else '\''

def quotedChar (quote c : Char) : List Char :=
  if c = quote ∨ c = '\\' then ['\\', c]
  else if c = '\n' then ['\\', 'n']
  else if c = '\r' then ['\\', 'r']
  else if c = '\t' then ['\\', 't']
  else if isPrintable c then [c]
  else codeEscape c

def quoted (s : List Char) : String :=
  let quote := quoteFor s
  .ofList (quote :: s.flatMap (quotedChar quote) ++ [quote])

end Recognizer.Text
