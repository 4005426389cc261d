import Recognizer.Command.Options
/-!
What the command line says about itself.
-/

namespace Recognizer.Command

def usage : String := "usage: py -m keytrie [-h] [-w WORDLIST] [-o OUTPUT] [-f] [-m] [--strict]
                     [--pretty] [-v]
                     [words ...]
"

def help : String := usage ++ "
Generate a Rust keyword recognizer from a list of words. The result is a
character-at-a-time state machine: a `consume` method and one small transition
function per state, suitable for the keyword-matching portion of a hand-
written scanner. With no words given, the Lox keywords are used.

positional arguments:
  words                 keywords to recognize

options:
  -h, --help            show this help message and exit
  -w WORDLIST, --wordlist WORDLIST
                        path to a file with one keyword per line
  -o OUTPUT, --output OUTPUT
                        path to output file (default: standard output)
  -f, --force           allow to write over existing file
  -m, --module          emit a complete module with match_keyword() and tests
  --strict              refuse keywords which extend, or are prefixes of,
                        other keywords
  --pretty              display the transition table in attractive grid format
  -v, --verbose         squawk about states and transitions as they are made
"

def Misuse.report (misuse : Misuse) : String :=
  let message := misuse.message
  usage ++ s!"py -m keytrie: error: {message}\n"

end Recognizer.Command
