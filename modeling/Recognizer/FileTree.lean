import Recognizer.Text.Quoted
/-!
Trees of files. A path is followed part by part from the working directory, and each part but the
last has to name a directory. Main statement: what is put at a place is found there, and nothing
else changes.
-/

namespace Recognizer

/-- The names that lead to a file or directory. Places above the working directory begin with
`..`, places of an absolute path with `/`. -/
abbrev Place := List String

inductive Node
  | directory
  | file (content : ByteArray)

inductive PathFault
  | missing
  | notADirectory
  | isADirectory
deriving DecidableEq

def PathFault.number : PathFault → Nat
  | missing => 2
  | notADirectory => 20
  | isADirectory => 21

def PathFault.description : PathFault → String
  | missing => "No such file or directory"
  | notADirectory => "Not a directory"
  | isADirectory => "Is a directory"

def PathFault.message (f : PathFault) (path : String) : String :=
  let path := Text.quoted path.toList
  s!"[Errno {f.number}] {f.description}: {path}"

/-- Files and directories that anyone may read and write. A path fails to open only in the ways of
`PathFault`: there are no permissions, and no path holds a NUL. -/
structure FileTree where
  nodes : List (Place × Node)

namespace FileTree

/-- The working directory, those above it and the root are always there. -/
def surrounds (place : Place) : Bool := place.all fun part ↦ part = ".." ∨ part = "/"

def find? (t : FileTree) (place : Place) : Option Node :=
  if surrounds place then some .directory else t.nodes.lookup place

/-- The parts of a path, empty ones included. -/
def parts : List Char → List (List Char)
  | [] => [[]]
  | c :: path =>
    if c = '/' then [] :: parts path
    else match parts path with
      | [] => [[c]]
      | part :: rest => (c :: part) :: rest

/-- One part further on; two dots lead back. -/
def enter (place : Place) (part : String) : Place :=
  if part = "" ∨ part = "." then place
  else if part = ".." then
    match place.getLast? with
    | none | some ".." => place ++ [".."]
    | some "/" => place
    | some _ => place.dropLast
  else place ++ [part]

def follow (t : FileTree) (place : Place) : List String → Except PathFault Place
  | [] => .ok place
  | part :: rest => match t.find? place with
    | none => .error .missing
    | some (.file _) => .error .notADirectory
    | some .directory => t.follow (enter place part) rest

def root (path : String) : Place := if path.toList.head? = some '/' then ["/"] else []

def partsOf (path : String) : List String := (parts path.toList).map String.ofList

/-- The place that a path names, whether anything stands there or not. -/
def resolve (t : FileTree) (path : String) : Except PathFault Place :=
  if path = "" then .error .missing else t.follow (root path) (partsOf path)

def isPresent (t : FileTree) (path : String) : Bool :=
  match t.resolve path with
  | .ok place => (t.find? place).isSome
  | .error _ => false

def read (t : FileTree) (path : String) : Except PathFault ByteArray :=
  (t.resolve path).bind fun place ↦ match t.find? place with
    | none => .error .missing
    | some .directory => .error .isADirectory
    | some (.file content) => .ok content

/-- Whether a path ends in a slash, so that it can only name a directory. -/
def namesDirectory (path : String) : Bool := path.toList.getLast? = some '/'

/-- The place that a path names for writing: its directory is there, and it is none itself. -/
def resolveFile (t : FileTree) (path : String) : Except PathFault Place :=
  if namesDirectory path then
    (t.follow (root path) ((partsOf path).reverse.dropWhile (· = "")).reverse).bind
      fun _ ↦ .error .isADirectory
  else
    (t.resolve path).bind fun place ↦ match t.find? place with
      | some .directory => .error .isADirectory
      | _ => .ok place

def put (t : FileTree) (place : Place) (node : Node) : FileTree :=
  ⟨(place, node) :: t.nodes.filter (·.1 ≠ place)⟩

def write (t : FileTree) (path : String) (content : ByteArray) : Except PathFault FileTree :=
  (t.resolveFile path).map (t.put · (.file content))

/-- A node at a path, with the directories that lead to it. -/
def plant (t : FileTree) (path : String) (node : Node) : FileTree :=
  let place := (partsOf path).foldl enter []
  let ways := (List.range place.length).map place.take
  (ways.foldl (fun t way ↦ t.put way .directory) t).put place node

def ofNodes (nodes : List (String × Node)) : FileTree :=
  nodes.foldl (fun t n ↦ t.plant n.1 n.2) ⟨[]⟩

theorem lookup_filter_ne {place other : Place} (h : other ≠ place) (nodes : List (Place × Node)) :
    (nodes.filter (·.1 ≠ place)).lookup other = nodes.lookup other := by
  induction nodes with
  | nil => rfl
  | cons n nodes ih =>
    by_cases hn : n.1 = place
    · have ho : (other == n.1) = false := by simpa [hn] using h
      rw [List.filter_cons_of_neg (by simp [hn]), ih, List.lookup_cons, ho]
    · rw [List.filter_cons_of_pos (by simp [hn]), List.lookup_cons, List.lookup_cons, ih]

theorem find?_put_self (t : FileTree) {place : Place} (node : Node) (h : surrounds place = false) :
    (t.put place node).find? place = some node := by
  simp [find?, put, h]

theorem find?_put_of_ne (t : FileTree) {place other : Place} (node : Node) (h : other ≠ place) :
    (t.put place node).find? other = t.find? other := by
  have hb : (other == place) = false := by simpa using h
  simp only [find?, put, List.lookup_cons, hb, lookup_filter_ne h]

end FileTree

end Recognizer
