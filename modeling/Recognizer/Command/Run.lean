import Recognizer.Automaton.Report
import Recognizer.Builder
import Recognizer.Code.Standalone
import Recognizer.Command.Usage
import Recognizer.Lox
import Recognizer.WordList.File
/-!
One run of the command line: what it prints, and the one file that it may write. All is settled
before anything is written.
-/

namespace Recognizer.Command

inductive Finish
  | exit (status : Nat)
  | fail (fault : ListFault)
  /-- The text goes to the path; the warnings are given as it is written. -/
  | write (path text : String) (warnings : List Warning)

structure Plan where
  stdout : String := ""
  stderr : String := ""
  warnings : List Warning := []
  finish : Finish

def line (text : String) : String := text ++ "\n"

def refuseOverwriting : Plan where
  stderr := line "Target file already exists and --force command-line argument was not given."
  finish := .exit 1

namespace Options

def form (o : Options) : Code.Form := if o.standalone then .standalone true else .machine

def builder (o : Options) : Builder where
  strict := o.strict
  verbose := o.verbose

/-- The words of the arguments and then those of the word list; without any, the keywords of Lox. -/
def offers (o : Options) (listed : List Word) : List Value :=
  let words := o.words ++ listed.map String.ofList
  (if words = [] then Lox.keywords else words).map .text

/-- The reports on an automaton and its code. The code has standard output for itself, unless it
goes to a file. -/
def planFor (o : Options) (notes : Notes) (a : Automaton) : Plan :=
  let told := String.join (notes.narration.map line) ++ (if o.verbose then a.stats else "")
  let table := if o.pretty then a.display else ""
  let code := Code.render a o.form 4
  let warnings := Code.warnings a o.form
  if o.output = "" then
    ⟨code, told ++ table, notes.warnings ++ warnings, .exit 0⟩
  else
    ⟨table, told, notes.warnings, .write o.output code warnings⟩

def planWords (o : Options) (listed : List Word) : Plan :=
  match o.builder.offerAll (o.offers listed) with
  | (notes, .ok built) => o.planFor notes built.automaton
  | (notes, .error refusal) =>
    { stderr := String.join (notes.narration.map line) ++ line refusal.message
      warnings := notes.warnings
      finish := .exit 1 }

/-- The plan for a run, given whether something stands at the output path, and what the file of the
word list holds. -/
def plan (o : Options) (present : Bool) (content : Except PathFault ByteArray) : Plan :=
  if o.output ≠ "" ∧ present ∧ !o.force then refuseOverwriting
  else if o.wordList = "" then o.planWords []
  else match WordList.ofContent o.wordList content with
    | .ok listed => o.planWords listed
    | .error (.line path fault) =>
      { stderr := line (fault.message (some path)), finish := .exit 1 }
    | .error fault => { finish := .fail fault }

end Options

inductive Failure
  | list (fault : ListFault)
  | output (path : String) (fault : PathFault)

def Failure.message : Failure → String
  | .list fault => fault.message
  | .output path fault => fault.message path

structure Outcome where
  stdout : String
  stderr : String
  warnings : List Warning
  /-- The exit status, unless the run broke off. -/
  status : Except Failure Nat
  tree : FileTree

def announcement (path : String) : String :=
  line "Wrote keyword recognizer to:" ++ line ("\t" ++ path)

/-- Standard output is taken to accept whatever is printed, also after the file has been written;
and a file is written in full or, where the path cannot be opened, not at all. -/
def Plan.carryOut (p : Plan) (t : FileTree) : Outcome :=
  match p.finish with
  | .exit status => ⟨p.stdout, p.stderr, p.warnings, .ok status, t⟩
  | .fail fault => ⟨p.stdout, p.stderr, p.warnings, .error (.list fault), t⟩
  | .write path text warnings => match t.write path text.toUTF8 with
    | .error fault => ⟨p.stdout, p.stderr, p.warnings, .error (.output path fault), t⟩
    | .ok written =>
      ⟨p.stdout ++ announcement path, p.stderr, p.warnings ++ warnings, .ok 0, written⟩

def Options.run (o : Options) (t : FileTree) : Outcome :=
  (o.plan (t.isPresent o.output) (t.read o.wordList)).carryOut t

def run (t : FileTree) (arguments : List String) : Outcome :=
  match request arguments with
  | .error misuse => ⟨"", misuse.report, [], .ok 2, t⟩
  | .ok .help => ⟨help, "", [], .ok 0, t⟩
  | .ok (.run o) => o.run t

/-- Runs in turn, each on the files that the one before it left. -/
def runs (t : FileTree) : List (List String) → List Outcome
  | [] => []
  | arguments :: rest =>
    let outcome := run t arguments
    outcome :: runs outcome.tree rest

end Recognizer.Command
