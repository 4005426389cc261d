import Recognizer.Command.Switch
import Recognizer.Text.Digit
import Recognizer.Text.Quoted
/-!
The arguments of the command line. Switches stand anywhere, long names may be cut short as long as
one switch answers to them, short ones may be joined, and the words stand in one stretch.
-/

namespace Recognizer.Command

inductive Misuse
  | ambiguous (argument : List Char) (candidates : List Switch)
  | valueMissing (switch : Switch)
  | valueUnwanted (switch : Switch) (value : List Char)
  | unrecognized (arguments : List (List Char))

def Misuse.message : Misuse → String
  | .ambiguous argument candidates =>
    let argument := String.ofList argument
    let candidates := String.intercalate ", " (candidates.map Switch.long)
    s!"ambiguous option: {argument} could match {candidates}"
  | .valueMissing switch => s!"argument {switch.names}: expected one argument"
  | .valueUnwanted switch value =>
    let value := Text.quoted value
    s!"argument {switch.names}: ignored explicit argument {value}"
  | .unrecognized arguments =>
    let arguments := String.intercalate " " (arguments.map String.ofList)
    s!"unrecognized arguments: {arguments}"

/-- What an argument is taken for. -/
inductive Token
  | plain (argument : List Char)
  /-- The two dashes after which all is plain. -/
  | divider
  /-- Switches of one argument, the last of them with a value if the argument holds one. -/
  | switches (flags : List Switch) (last : Switch) (value : Option (List Char))
  | misused (misuse : Misuse)
  | unknown (argument : List Char)

/-- The short switches that follow a first one in the same argument: flags, and what is left as the
value of one that takes a value. -/
def joined (switch : Switch) : List Char → Token
  | [] => .switches [] switch none
  | c :: rest =>
    if switch.takesValue then .switches [] switch (some (c :: rest))
    else match Switch.ofShort? c with
      | none => .misused (.valueUnwanted switch (c :: rest))
      | some next => match joined next rest with
        | .switches flags last value => .switches (switch :: flags) last value
        | token => token

def withValue (switch : Switch) (value : List Char) : Token :=
  if switch.takesValue then .switches [] switch (some value)
  else .misused (.valueUnwanted switch value)

/-- A name and the value after the first equals sign, if there is one. -/
def splitValue : List Char → List Char × Option (List Char)
  | [] => ([], none)
  | c :: s =>
    if c = '=' then ([], some s)
    else
      let (name, value) := splitValue s
      (c :: name, value)

def named? (name : List Char) : Option Switch :=
  match name with
  | ['-', c] => Switch.ofShort? c
  | _ => Switch.ofLong? name

/-- A short switch goes on with the switches joined to it. -/
def switchToken (name : List Char) (switch : Switch) : Option (List Char) → Token
  | none => .switches [] switch none
  | some [] => withValue switch []
  | some value => if name.length = 2 then joined switch value else withValue switch value

/-- A negative number in decimal, with or without a fraction, and perhaps a line feed after it. -/
def isNegativeNumber (argument : List Char) : Bool :=
  match argument with
  | '-' :: rest =>
    let rest := if rest.getLast? = some '\n' then rest.dropLast else rest
    match rest.dropWhile Text.isDecimalDigit with
    | [] => !rest.isEmpty
    | '.' :: fraction => !fraction.isEmpty && fraction.all Text.isDecimalDigit
    | _ => false
  | _ => false

/-- What an argument is that begins with a dash and names no switch in full. -/
def guess (argument : List Char) : Except Misuse Token :=
  let (name, value) := splitValue argument
  match argument with
  | '-' :: '-' :: _ => match Switch.abbreviated name with
    | [switch] => .ok (switchToken name switch value)
    | [] => .ok (if ' ' ∈ argument then .plain argument else .unknown argument)
    | candidates => .error (.ambiguous argument candidates)
  | '-' :: c :: rest => match Switch.ofShort? c with
    | some switch => .ok (joined switch rest)
    | none =>
      .ok (if isNegativeNumber argument || ' ' ∈ argument then .plain argument
        else .unknown argument)
  | _ => .ok (.plain argument)

def token (argument : List Char) : Except Misuse Token :=
  if argument.head? ≠ some '-' then .ok (.plain argument)
  else
    let (name, value) := splitValue argument
    match named? argument, named? name with
    | some switch, _ => .ok (.switches [] switch none)
    | none, some switch => .ok (switchToken name switch value)
    | none, none => guess argument

/-- All arguments are looked at before any is used. -/
def tokens : List (List Char) → Except Misuse (List Token)
  | [] => .ok []
  | argument :: arguments =>
    if argument = ['-', '-'] then .ok (.divider :: arguments.map .plain)
    else (token argument).bind fun t ↦ (tokens arguments).map (t :: ·)

/-- What the arguments ask for. An empty path stands for none. -/
structure Options where
  words : List String := []
  wordList : String := ""
  output : String := ""
  force : Bool := false
  standalone : Bool := false
  strict : Bool := false
  pretty : Bool := false
  verbose : Bool := false
deriving DecidableEq

namespace Options

def setFlag (o : Options) : Switch → Options
  | .force => { o with force := true }
  | .standalone => { o with standalone := true }
  | .strict => { o with strict := true }
  | .pretty => { o with pretty := true }
  | .verbose => { o with verbose := true }
  | .help | .wordList | .output => o

/-- Two dashes as a value stand for no value. -/
def setValue (o : Options) (switch : Switch) (value : List Char) : Options :=
  let text := if value = ['-', '-'] then "" else String.ofList value
  match switch with
  | .wordList => { o with wordList := text }
  | .output => { o with output := text }
  | _ => o

def addWord (o : Options) (word : List Char) : Options :=
  { o with words := o.words ++ [String.ofList word] }

end Options

/-- Where the one stretch of words stands in relation to the arguments read so far. -/
inductive Stretch
  | ahead
  | within
  | past

def Stretch.close : Stretch → Stretch
  | .ahead => .ahead
  | .within | .past => .past

inductive Request
  | help
  | run (o : Options)

/-- Uses the tokens in turn. Arguments that have no place are listed at the end, unless help was
asked for before. -/
def use (o : Options) (stretch : Stretch) (strays : List (List Char)) :
    List Token → Except Misuse Request
  | [] => if strays = [] then .ok (.run o) else .error (.unrecognized strays)
  | .plain argument :: rest => match stretch with
    | .past => use o .past (strays ++ [argument]) rest
    | _ => use (o.addWord argument) .within strays rest
  | .divider :: rest => match stretch with
    | .past => use o .past (strays ++ [['-', '-']]) rest
    | _ => use o .within strays rest
  | .unknown argument :: rest => use o stretch.close (strays ++ [argument]) rest
  | .misused misuse :: _ => .error misuse
  | .switches flags last (some value) :: rest =>
    if .help ∈ flags then .ok .help
    else use ((flags.foldl Options.setFlag o).setValue last value) stretch.close strays rest
  | .switches flags last none :: rest =>
    if last.takesValue then
      match rest with
      | .plain value :: rest =>
        if .help ∈ flags then .ok .help
        else use ((flags.foldl Options.setFlag o).setValue last value) stretch.close strays rest
      | _ => .error (.valueMissing last)
    else if .help ∈ flags ∨ last = .help then .ok .help
    else use ((flags.foldl Options.setFlag o).setFlag last) stretch.close strays rest

def request (arguments : List String) : Except Misuse Request :=
  (tokens (arguments.map String.toList)).bind (use {} .ahead [])

end Recognizer.Command
