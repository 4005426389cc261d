import Recognizer.FileTree
import Recognizer.Text.Lines
import Recognizer.WordList.Basic
/-!
Word lists in files: text in UTF-8, whose breaks are unified before it is read.
-/

namespace Recognizer

inductive ListFault
  | path (path : String) (fault : PathFault)
  | notText (path : String)
  | line (path : String) (fault : WordList.Fault)

def ListFault.message : ListFault → String
  | path p fault => fault.message p
  | notText p => s!"not UTF-8 text: {p}"
  | line p fault => fault.message (some p)

def WordList.ofContent (path : String) (content : Except PathFault ByteArray) :
    Except ListFault (List Word) :=
  match content with
  | .error fault => .error (.path path fault)
  | .ok bytes => match String.fromUTF8? bytes with
    | none => .error (.notText path)
    | some text => (WordList.parse (Text.unifyBreaks text.toList)).mapError (.line path)

def FileTree.wordList (t : FileTree) (path : String) : Except ListFault (List Word) :=
  WordList.ofContent path (t.read path)

end Recognizer
