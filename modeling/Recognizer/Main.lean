import Recognizer.Command.Run
/-!
The program: reads what a run needs from the file system, prints what it planned and writes its
file.
-/

namespace Recognizer.Command

def isThere (path : String) : IO Bool :=
  try
    let _ ← IO.FS.realPath path
    return true
  catch _ => return false

def contentOf (path : String) : IO (Except PathFault ByteArray) :=
  try return .ok (← IO.FS.readBinFile path)
  catch
    | .inappropriateType .. => return .error .isADirectory
    | _ => return .error .missing

def perform (o : Options) : IO Nat := do
  let plan := o.plan (← isThere o.output) (← contentOf o.wordList)
  let warn (warnings : List Warning) : IO Unit :=
    warnings.forM fun w ↦ IO.eprintln ("warning: " ++ w.message)
  IO.print plan.stdout
  IO.eprint plan.stderr
  warn plan.warnings
  match plan.finish with
  | .exit status => return status
  | .fail fault =>
    IO.eprintln fault.message
    return 1
  | .write path text warnings =>
    IO.FS.writeFile path text
    warn warnings
    IO.print (announcement path)
    return 0

end Recognizer.Command

def main (arguments : List String) : IO UInt32 :=
  match Recognizer.Command.request arguments with
  | .error misuse => do
    IO.eprint misuse.report
    return 2
  | .ok .help => do
    IO.print Recognizer.Command.help
    return 0
  | .ok (.run o) => return (← Recognizer.Command.perform o).toUInt32
