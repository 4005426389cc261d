import Recognizer.Automaton.Basic
import Recognizer.Grid
import Recognizer.Text.Visible
/-!
Reports on an automaton: its counts in one line, and the grid of its edges. Main statement: the rows
of edges always form a grid.
-/

namespace Recognizer.Automaton

def stats (a : Automaton) : String :=
  let words := a.words.length
  let conflicts := a.conflicts.length
  let states := a.size
  let interior := a.interior.length
  let edges := a.edges.length
  s!"{words} words ({conflicts} in conflict), {states} states ({interior} interior), " ++
    s!"{edges} transitions.\n"

def heading : List String := ["", "From", "Symbol", "To"]

def edgeRow (e : Edge) (index : Nat) : List String :=
  [toString index, State.label e.source, Text.visible e.symbol, State.label e.destination]

def table (a : Automaton) : List (List String) :=
  heading :: a.edges.zipIdx.map fun e ↦ edgeRow e.1 e.2

def display (a : Automaton) : String := Grid.draw a.table

theorem isEven_table (a : Automaton) : Grid.isEven a.table := by
  simp [table, Grid.isEven, heading, edgeRow]

theorem print_table (a : Automaton) : Grid.print a.table = .ok a.display :=
  Grid.print_eq_ok a.isEven_table

end Recognizer.Automaton
