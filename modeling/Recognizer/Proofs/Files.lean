import Recognizer.FileTree
/-!
What a tree of files shows after a write. A path is followed through directories alone, and a write
replaces none of them, so that every path leads where it did. Main statements: the path written to
holds what was written, and what stands at any other place still does.
-/

namespace Except

variable {ε α β : Type} {x : Except ε α} {b : β}

theorem bind_eq_ok_iff {f : α → Except ε β} : x.bind f = .ok b ↔ ∃ a, x = .ok a ∧ f a = .ok b := by
  cases x <;> simp [Except.bind]

theorem map_eq_ok_iff {f : α → β} : x.map f = .ok b ↔ ∃ a, x = .ok a ∧ f a = b := by
  cases x <;> simp [Except.map]

end Except

namespace Recognizer.FileTree

variable {t written : FileTree} {place other : Place} {path : String} {node : Node}
  {content : ByteArray}

/-- What stands at a path, if anything does. -/
def node? (t : FileTree) (path : String) : Option Node := (t.resolve path).toOption.bind t.find?

theorem node?_of_resolve (h : t.resolve path = .ok place) : t.node? path = t.find? place := by
  rw [node?, h]
  rfl

theorem isPresent_eq_isSome (t : FileTree) (path : String) :
    t.isPresent path = (t.node? path).isSome := by
  rw [isPresent, node?]
  cases t.resolve path <;> rfl

theorem exists_of_isPresent (h : t.isPresent path) :
    ∃ place, t.resolve path = .ok place ∧ t.find? place ≠ none := by
  rw [isPresent] at h
  cases hr : t.resolve path with
  | error fault => simp [hr] at h
  | ok place => exact ⟨place, rfl, by simpa [hr, Option.isSome_iff_ne_none] using h⟩

theorem read_of_node? (h : t.node? path = some (.file content)) : t.read path = .ok content := by
  cases hr : t.resolve path with
  | error fault => simp [node?, hr, Except.toOption] at h
  | ok place =>
    rw [node?_of_resolve hr] at h
    rw [read, hr]
    simp [Except.bind, h]

theorem surrounds_of_find?_ne (h : t.find? place ≠ some .directory) : surrounds place = false := by
  rw [Bool.eq_false_iff]
  intro hs
  exact h (if_pos hs)

theorem follow_put (h : t.find? place ≠ some .directory) (node : Node) {start : Place}
    {parts : List String} (hf : t.follow start parts = .ok other) :
    (t.put place node).follow start parts = .ok other := by
  induction parts generalizing start with
  | nil => exact hf
  | cons part rest ih =>
    rw [follow] at hf ⊢
    cases hn : t.find? start with
    | none => simp [hn] at hf
    | some passed =>
      cases passed with
      | file content => simp [hn] at hf
      | directory =>
        have hne : start ≠ place := by
          rintro rfl
          exact h hn
        simp only [hn] at hf
        simp only [find?_put_of_ne t node hne, hn]
        exact ih hf

theorem resolve_put (h : t.find? place ≠ some .directory) (node : Node)
    (hr : t.resolve path = .ok other) : (t.put place node).resolve path = .ok other := by
  rw [resolve] at hr ⊢
  split at hr
  · cases hr
  · next hpath =>
    rw [if_neg hpath]
    exact follow_put h node hr

theorem resolveFile_eq_ok (h : t.resolveFile path = .ok place) :
    t.resolve path = .ok place ∧ t.find? place ≠ some .directory := by
  rw [resolveFile] at h
  split at h
  · obtain ⟨_, -, h⟩ := Except.bind_eq_ok_iff.1 h
    cases h
  · obtain ⟨reached, hr, h⟩ := Except.bind_eq_ok_iff.1 h
    split at h
    · cases h
    · next hn =>
      cases h
      exact ⟨hr, hn⟩

theorem write_eq_ok (h : t.write path content = .ok written) :
    ∃ place, t.resolve path = .ok place ∧ t.find? place ≠ some .directory ∧
      written = t.put place (.file content) := by
  rw [write] at h
  obtain ⟨place, hf, rfl⟩ := Except.map_eq_ok_iff.1 h
  obtain ⟨hresolve, hn⟩ := resolveFile_eq_ok hf
  exact ⟨place, hresolve, hn, rfl⟩

/-- A path that named the place of another node names it still. -/
theorem node?_put_of_ne (h : t.find? place ≠ some .directory) (hr : t.resolve path = .ok other)
    (hne : other ≠ place) : (t.put place node).node? path = t.node? path := by
  rw [node?_of_resolve hr, node?_of_resolve (resolve_put h node hr), find?_put_of_ne t node hne]

theorem read_put (h : t.find? place ≠ some .directory) (hr : t.resolve path = .ok place)
    (content : ByteArray) : (t.put place (.file content)).read path = .ok content := by
  apply read_of_node?
  rw [node?_of_resolve (resolve_put h _ hr), find?_put_self t _ (surrounds_of_find?_ne h)]

end Recognizer.FileTree
