import Recognizer.Store.Basic
/-!
The states that edges connect to the start, found breadth first: states seen wait in a queue until
the edges that leave them have been gone through. Main statement: no step of the search adds to the
states that are still unseen and those that wait, so it comes to an end.
-/

namespace Recognizer

/-- Where the edges that leave a state lead, in order; states stand as their first edge came. -/
abbrev Successors := List (State × List State)

namespace Successors

def add (q p : State) : Successors → Successors
  | [] => [(q, [p])]
  | (o, ends) :: table =>
    if o = q then (o, ends ++ [p]) :: table else (o, ends) :: add q p table

def ofEdges (edges : List Edge) : Successors :=
  edges.foldl (fun table e ↦ table.add e.source e.destination) []

def of (table : Successors) (q : State) : List State := (table.lookup q).getD []

/-- The states that are met first go on record as seen, and to the end of the queue. -/
def visit (seen queue : List State) : List State → List State × List State
  | [] => (seen, queue)
  | q :: ends =>
    if q ∈ seen then visit seen queue ends else visit (seen ++ [q]) (queue ++ [q]) ends

/-- How many ends of edges have not been seen. -/
def unseen (table : Successors) (seen : List State) : Nat :=
  (table.flatMap (·.2)).countP (· ∉ seen)

theorem unseen_lt {table : Successors} {seen : List State} {q : State}
    (hq : q ∈ table.flatMap (·.2)) (hs : q ∉ seen) :
    table.unseen (seen ++ [q]) < table.unseen seen := by
  unfold unseen
  obtain ⟨before, behind, he⟩ := List.append_of_mem hq
  have hmono (l : List State) : l.countP (· ∉ seen ++ [q]) ≤ l.countP (· ∉ seen) :=
    List.countP_mono_left fun p _ hp ↦ by simp_all
  have hbefore := hmono before
  have hbehind := hmono behind
  simp [he, List.countP_append, hs] at hbefore hbehind ⊢
  omega

theorem mem_of_mem_of {table : Successors} {q p : State} (h : p ∈ table.of q) :
    p ∈ table.flatMap (·.2) := by
  rw [of] at h
  cases hl : table.lookup q with
  | none => simp [hl] at h
  | some ends =>
    rw [hl] at h
    obtain ⟨before, behind, rfl, -⟩ := List.lookup_eq_some_iff.1 hl
    simp_all

theorem unseen_visit_le {table : Successors} {ends : List State} (seen queue : List State)
    (h : ∀ q ∈ ends, q ∈ table.flatMap (·.2)) :
    table.unseen (visit seen queue ends).1 + (visit seen queue ends).2.length ≤
      table.unseen seen + queue.length := by
  induction ends generalizing seen queue with
  | nil => exact Nat.le_refl _
  | cons q ends ih =>
    obtain ⟨hq, hends⟩ := List.forall_mem_cons.1 h
    rw [visit]
    split
    · exact ih seen queue hends
    · next hs =>
      have hrest := ih (seen ++ [q]) (queue ++ [q]) hends
      have hlt := unseen_lt hq hs
      rw [List.length_append, List.length_singleton] at hrest
      omega

/-- What is seen once the queue has been emptied, front to end. -/
def search (table : Successors) (seen : List State) : List State → List State
  | [] => seen
  | q :: queue =>
    let met := visit seen queue (table.of q)
    search table met.1 met.2
termination_by queue => table.unseen seen + queue.length
decreasing_by
  have hends : ∀ p ∈ table.of q, p ∈ table.flatMap (·.2) := fun p hp ↦ mem_of_mem_of hp
  have hle := unseen_visit_le seen queue hends
  rw [List.length_cons]
  exact Nat.lt_succ_of_le hle

end Successors

/-- The states that are found from the start, in the order in which they are met. -/
def Store.reachable (s : Store) : List State :=
  (Successors.ofEdges s.edges).search [State.start] [State.start]

end Recognizer
