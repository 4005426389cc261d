import Recognizer.Code.Literal
import Recognizer.Code.Blueprint
import Recognizer.Layout
/-!
An automaton as Rust code: one method that takes a character, dispatching on the state, and one
function for each state that matching can go on from. Arms stand in the order of the edges.
-/

namespace Recognizer.Code

/-- The final and the failing state refuse to move. -/
def dispatchArm (q : State) : Step :=
  .line (if q = State.final ∨ q = State.fail then s!"{q} => return false,"
    else s!"{q} => _state_{q}(t),")

def consume (a : Blueprint) : List Step :=
  [.line "fn consume(&mut self, t: char) -> bool \x7b",
    .indented [
      .line "let next_state = match self.state \x7b",
      .indented (a.states.map dispatchArm ++ [.line "_ => unreachable!(),"]),
      .line "\x7d;",
      .line "self.state = next_state;",
      .line "true"],
    .line "\x7d"]

def edgeArm (edge : Char × State) : Step :=
  let symbol := charLiteral [edge.1]
  let destination := edge.2
  .line s!"{symbol} => {destination},"

def failArm : Step := .line s!"_ => {State.fail},"

/-- The function of a state, which may be any number; one that no edge leaves has the last arm
alone. -/
def stateFunction (a : Blueprint) (q : Int) (type : String) : List Step :=
  [.line "#[inline(always)]",
    .line s!"fn _state_{q}(t: char) -> {type} \x7b",
    .indented [
      .line "match t \x7b",
      .indented ((a.edgesAt q).map edgeArm ++ [failArm]),
      .line "\x7d"],
    .line "\x7d"]

def stateFunctions (a : Blueprint) : List Step :=
  a.interior.flatMap fun q : State ↦ stateFunction a q a.stateType.name

def machine (a : Blueprint) : List Step := consume a ++ stateFunctions a

end Recognizer.Code
