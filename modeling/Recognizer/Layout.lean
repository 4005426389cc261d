/-!
Indented lines. Steps write a line at the depth they find, or change the depth; a body in its own
scope goes one level deeper and comes back, also when it is left early.
-/

namespace Recognizer

inductive Step
  | line (text : String)
  | block
  /-- At the outermost level this does nothing. -/
  | blockEnd
  | indented (body : List Step)
  /-- Leaves the body that it stands in. -/
  | abort

namespace Layout

structure Printed where
  lines : List String
  /-- The depth after each step that was completed, those of a body before the whole of it. -/
  depths : List Nat
  depth : Nat
  aborted : Bool

def Printed.text (p : Printed) : String := String.join (p.lines.map (· ++ "\n"))

/-- A negative width indents by nothing. -/
def indent (width : Int) (depth : Nat) : String :=
  .ofList (List.replicate (depth * width).toNat ' ')

/-- An empty line stays empty at any depth. -/
def place (width : Int) (depth : Nat) (text : String) : String :=
  if text = "" then "" else indent width depth ++ text

mutual

def step (width : Int) (depth : Nat) : Step → Printed
  | .line text => ⟨[place width depth text], [depth], depth, false⟩
  | .block => ⟨[], [depth + 1], depth + 1, false⟩
  | .blockEnd => ⟨[], [depth - 1], depth - 1, false⟩
  | .indented body =>
    let inner := print width (depth + 1) body
    ⟨inner.lines, inner.depths ++ [inner.depth - 1], inner.depth - 1, false⟩
  | .abort => ⟨[], [], depth, true⟩

/-- The steps in order, none after the one that aborts. -/
def print (width : Int) (depth : Nat) : List Step → Printed
  | [] => ⟨[], [], depth, false⟩
  | s :: steps =>
    let first := step width depth s
    if first.aborted then first
    else
      let rest := print width first.depth steps
      ⟨first.lines ++ rest.lines, first.depths ++ rest.depths, rest.depth, rest.aborted⟩

end

@[simp] theorem place_empty (width : Int) (depth : Nat) : place width depth "" = "" := rfl

theorem place_zero (width : Int) (text : String) : place width 0 text = text := by
  by_cases h : text = "" <;> simp [place, indent, h]

@[simp] theorem print_nil (width : Int) (depth : Nat) :
    print width depth [] = ⟨[], [], depth, false⟩ := rfl

@[simp] theorem step_aborted (width : Int) (depth : Nat) (body : List Step) :
    (step width depth (.indented body)).aborted = false := rfl

theorem print_line (width : Int) (depth : Nat) (text : String) (steps : List Step) :
    print width depth (.line text :: steps) =
      let rest := print width depth steps
      ⟨place width depth text :: rest.lines, depth :: rest.depths, rest.depth, rest.aborted⟩ := rfl

end Layout

end Recognizer
