/-!
The switches of the command line and their names.
-/

namespace Recognizer.Command

inductive Switch
  | help
  | wordList
  | output
  | force
  | standalone
  | strict
  | pretty
  | verbose
deriving DecidableEq

namespace Switch

/-- In the order in which the help lists them. -/
def all : List Switch :=
  [help, wordList, output, force, standalone, strict, pretty, verbose]

def short? : Switch → Option Char
  | help => some 'h'
  | wordList => some 'w'
  | output => some 'o'
  | force => some 'f'
  | standalone => some 'm'
  | verbose => some 'v'
  | strict | pretty => none

def long : Switch → String
  | help => "--help"
  | wordList => "--wordlist"
  | output => "--output"
  | force => "--force"
  | standalone => "--module"
  | strict => "--strict"
  | pretty => "--pretty"
  | verbose => "--verbose"

/-- Whether a value belongs to it: the rest of its argument, or the next argument. -/
def takesValue : Switch → Bool
  | wordList | output => true
  | _ => false

def names (s : Switch) : String :=
  match s.short? with
  | some c => "-" ++ .ofList [c] ++ "/" ++ s.long
  | none => s.long

def ofShort? (c : Char) : Option Switch := all.find? (·.short? = some c)

def ofLong? (name : List Char) : Option Switch := all.find? (·.long.toList = name)

def abbreviated (start : List Char) : List Switch := all.filter (start <+: ·.long.toList)

end Switch

end Recognizer.Command
