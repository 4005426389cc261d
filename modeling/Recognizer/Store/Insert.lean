import Recognizer.Builder
import Recognizer.Store.Basic
/-!
Insertion into a store, one step after another. An action changes the store as it goes and may break
off on the way, which takes back nothing. Main statement: a run of actions is a run of the first,
and one of the rest where the first has left off.
-/

namespace Recognizer

/-- The values that a value lists, if it can be gone through: a text lists its characters. -/
def Value.elements? : Value → Option (List Value)
  | .text s => some (s.toList.map fun c ↦ .text (.ofList [c]))
  | .list values => some values
  | _ => none

/-- What is done to a store, and said on the way. -/
abbrev Action := ExceptT Refusal (StateM (Store × Notes))

/-- How an action ends, and what it leaves in either case. -/
def Action.outcome {α : Type} (x : Action α) (found : Store × Notes) :
    Except Refusal α × Store × Notes :=
  Id.run (StateT.run (ExceptT.run x) found)

namespace Store

def now : Action Store := return (← get).1

def change (f : Store → Store) : Action Unit := modify fun (s, notes) ↦ (f s, notes)

def say (more : Notes) : Action Unit := modify fun (s, notes) ↦ (s, notes ++ more)

/-- The next number becomes a state. -/
def newState : Action State := do
  let q := (← now).states.length
  change fun s ↦ { s with states := s.states ++ [q] }
  return q

/-- The index and the edges are each told of an edge. -/
def link (e : Edge) : Action Unit := do
  change fun s ↦ { s with index := ((e.source, e.symbol), e.destination) :: s.index }
  change fun s ↦ { s with edges := s.edges ++ [e] }

/-- Where the index leads along a word, from `q` and after `depth` symbols, the number of symbols
after which the word runs through the final state, or ends elsewhere. -/
def clash? (s : Store) (q : State) (depth : Nat) : Word → Option Nat
  | [] => if q = State.final then none else some depth
  | c :: w =>
    if q = State.final then some depth
    else match s.next? q c with
      | some p => s.clash? p (depth + 1) w
      | none => none

/-- The first value that is no character breaks off. -/
def symbols (offered : Value) : List Value → Action Word
  | [] => return []
  | v :: values => do
    match v.char? with
    | none => throw (.notACharacter offered v)
    | some c => return c :: (← symbols offered values)

/-- The word that a value spells. -/
def spell (v : Value) : Action Word :=
  match v.elements? with
  | none => throw (.notASequence v)
  | some [] => throw .emptyWord
  | some values => symbols v values

/-- A word that conflicts is refused, or else goes on record with a warning. -/
def judge (w : Word) : Action Unit := do
  match (← now).clash? State.start 0 w with
  | none => return
  | some depth =>
    if (← now).strict then throw (.conflict w depth)
    say { warnings := [.conflict w depth] }
    change fun s ↦ { s with conflicts := s.conflicts ++ [w] }

/-- A key that the index does not have gets an edge: to the final state if its symbol is the last of
the word, and else to a new state. -/
def ensure (word : Word) (q : State) (c : Char) (last : Bool) : Action Unit := do
  if ((← now).next? q c).isNone then
    let p ← if last then pure State.final else newState
    link ⟨q, c, p⟩
    if (← now).verbose then say { narration := [Builder.narrate word ⟨q, c, p⟩] }

/-- The symbols in turn, each from where the index leads by the one before. -/
def record (word : Word) (q : State) : Word → Action Unit
  | [] => return
  | c :: w => do
    ensure word q c w.isEmpty
    record word ((← now).step q c) w

def insert (v : Value) : Action Unit := do
  let w ← spell v
  judge w
  record w State.start w
  change fun s ↦ { s with words := s.words ++ [w] }

/-- Insertions in turn, up to the first that breaks off. -/
def insertAll : List Value → Action Unit
  | [] => return
  | v :: values => do
    insert v
    insertAll values

end Store

namespace Action

variable {α β : Type} (found : Store × Notes)

theorem outcome_bind (x : Action α) (f : α → Action β) : (x >>= f).outcome found =
    match x.outcome found with
    | (.ok a, left) => (f a).outcome left
    | (.error refusal, left) => (.error refusal, left) := by
  simp only [outcome, ExceptT.run_bind, StateT.run_bind, Id.run_bind]
  cases h : (StateT.run (ExceptT.run x) found).run with
  | mk result left => cases result <;> rfl

@[simp] theorem outcome_pure (a : α) : (pure a : Action α).outcome found = (.ok a, found) := rfl

@[simp] theorem outcome_throw (r : Refusal) :
    (throw r : Action α).outcome found = (.error r, found) := rfl

@[simp] theorem outcome_now : Store.now.outcome found = (.ok found.1, found) := rfl

@[simp] theorem outcome_change (f : Store → Store) :
    (Store.change f).outcome found = (.ok (), f found.1, found.2) := rfl

@[simp] theorem outcome_say (more : Notes) :
    (Store.say more).outcome found = (.ok (), found.1, found.2 ++ more) := rfl

end Action

end Recognizer
