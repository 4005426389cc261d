import Mathlib.Algebra.Order.Floor.Div
import Mathlib.Data.List.Forall2
import Mathlib.Data.List.Induction
import Mathlib.Order.Bounds.Basic
import Recognizer.Grid
import Recognizer.Proofs.Breaks
/-!
Where everything stands in a drawn grid. Main statements: columns are as wide as their widest cells;
each line has its junctions, and a row its cells, at offsets that depend on the columns alone; and
dividers stand below the heading and below every fifth row after it, wherever a row follows.
-/

namespace Recognizer.Grid

/-- What a line of a drawn grid is. -/
inductive Line
  | top
  | divider
  | row (cells : List String)
  | bottom

/-- What stands between two columns. -/
def Line.junction : Line → List Char
  | top => ['─', '┬', '─']
  | divider => ['─', '┼', '─']
  | row _ => [' ', '│', ' ']
  | bottom => ['─', '┴', '─']

/-- Where a column starts: behind the columns before it, and a junction behind each of them. -/
def offset (columns : List Nat) (j : Nat) : Nat := (columns.take j).sum + 3 * j

/-- As many characters as asked for, from an offset on. -/
def slice (text : List Char) (start count : Nat) : List Char := (text.drop start).take count

/-- The lengths of the cells in one column. -/
def cellLengths (rows : List (List String)) (j : Nat) : Set Nat :=
  {n | ∃ row ∈ rows, ∃ cell, row[j]? = some cell ∧ cell.length = n}

/-- A line as it is drawn over columns of given widths. -/
structure Drawn (columns : List Nat) (line : Line) (text : List Char) : Prop where
  length : text.length = columns.sum + 3 * (columns.length - 1)
  junction : ∀ j n, columns[j]? = some n → j + 1 < columns.length →
    slice text (offset columns j + n) 3 = line.junction
  /-- Cells stand to the right. -/
  cell : ∀ cells, line = .row cells → ∀ j n cell, columns[j]? = some n → cells[j]? = some cell →
    cell.length ≤ n ∧
      slice text (offset columns j) n = List.replicate (n - cell.length) ' ' ++ cell.toList

/-- The line that a row stands on, counted from zero: below the top, the rows before it, and a
divider for each five of them. -/
def lineOf (r : Nat) : Nat := 1 + r + (r + 4) / 5

/-- The lines of a grid in order. -/
structure Planned (rows : List (List String)) (plan : List Line) : Prop where
  length : plan.length = rows.length + 2 + (rows.length - 1) ⌈/⌉ 5
  top : plan.head? = some .top
  bottom : plan.getLast? = some .bottom
  row : ∀ r cells, rows[r]? = some cells → plan[lineOf r]? = some (.row cells)
  /-- Each divider stands between two rows. -/
  divider : ∀ i, plan[i]? = some .divider ↔ ∃ k, i = lineOf (5 * k) + 1 ∧
    i + 1 = lineOf (5 * k + 1) ∧ 5 * k + 1 < rows.length

variable {rows : List (List String)} {row : List String} {columns : List Nat} {c j n : Nat}
  {cells : List (List Char)} {sep : List Char}

section Widths

theorem widths_cons (row : List String) (hne : rows ≠ []) :
    widths (row :: rows) = List.zipWith max (row.map String.length) (widths rows) := by
  cases rows with
  | nil => exact absurd rfl hne
  | cons row' rows => rfl

theorem length_widths (hne : rows ≠ []) (hc : ∀ row ∈ rows, row.length = c) :
    (widths rows).length = c := by
  induction rows with
  | nil => exact absurd rfl hne
  | cons row rows ih =>
    obtain ⟨hrow, hrows⟩ := List.forall_mem_cons.1 hc
    by_cases h : rows = []
    · simpa [h, widths] using hrow
    · simp [widths_cons row h, hrow, ih h hrows]

theorem cellLengths_cons (row : List String) (rows : List (List String)) (j : Nat) :
    cellLengths (row :: rows) j = cellLengths [row] j ∪ cellLengths rows j := by
  ext n
  simp [cellLengths]

theorem isGreatest_of_getElem? (h : (row.map String.length)[j]? = some n) :
    IsGreatest (cellLengths [row] j) n := by
  rw [List.getElem?_map, Option.map_eq_some_iff] at h
  obtain ⟨cell, hcell, rfl⟩ := h
  have hset : cellLengths [row] j = {cell.length} := by
    ext n
    simp [cellLengths, hcell, eq_comm]
  rw [hset]
  exact isGreatest_singleton

/-- A column is as wide as its widest cell. -/
theorem isGreatest_widths (h : (widths rows)[j]? = some n) : IsGreatest (cellLengths rows j) n := by
  induction rows generalizing n with
  | nil => simp [widths] at h
  | cons row rows ih =>
    by_cases hne : rows = []
    · subst hne
      exact isGreatest_of_getElem? h
    · rw [widths_cons row hne, List.getElem?_zipWith_eq_some] at h
      obtain ⟨m, k, hm, hk, rfl⟩ := h
      rw [cellLengths_cons]
      exact (isGreatest_of_getElem? hm).union (ih hk)

end Widths

section Columns

/-- Texts joined by a separator: what stands before one of them, that one, and the separator behind
it, unless it is the last one. -/
theorem exists_intercalate (sep : List Char) {cell : List Char} (h : cells[j]? = some cell) :
    ∃ before after, sep.intercalate cells = before ++ cell ++ after ∧
      before.length = ((cells.map List.length).take j).sum + sep.length * j ∧
      (j + 1 < cells.length → sep <+: after) := by
  induction cells generalizing j with
  | nil => simp at h
  | cons first cells ih =>
    cases j with
    | zero =>
      obtain rfl : first = cell := by simpa using h
      cases cells with
      | nil => exact ⟨[], [], by simp, by simp, by simp⟩
      | cons second cells =>
        refine ⟨[], sep ++ sep.intercalate (second :: cells), ?_, by simp, ?_⟩
        · rw [List.intercalate_cons_cons, List.nil_append, List.append_assoc]
        · exact fun _ ↦ List.prefix_append _ _
    | succ j =>
      rw [List.getElem?_cons_succ] at h
      have hne : cells ≠ [] := by
        rintro rfl
        simp at h
      obtain ⟨before, after, hs, hlength, hafter⟩ := ih h
      refine ⟨first ++ sep ++ before, after, ?_, ?_, ?_⟩
      · rw [List.intercalate_cons_of_ne_nil hne, hs, ← List.append_assoc, ← List.append_assoc]
      · simp [hlength]
        lia
      · intro hj
        exact hafter (by simpa using hj)

theorem length_intercalate : (sep.intercalate cells).length =
    (cells.map List.length).sum + sep.length * (cells.length - 1) := by
  induction cells with
  | nil => rfl
  | cons first cells ih =>
    cases cells with
    | nil => simp
    | cons second cells =>
      rw [List.intercalate_cons_cons, List.length_append, ih]
      simp
      lia

theorem slice_append (before text after : List Char) :
    slice (before ++ text ++ after) before.length text.length = text := by
  rw [slice, List.append_assoc, List.drop_left, List.take_left]

/-- Texts as wide as the columns stand at the offsets of the columns. -/
theorem slice_intercalate (hsep : sep.length = 3) (hcells : cells.map List.length = columns)
    {cell : List Char} (h : cells[j]? = some cell) :
    slice (sep.intercalate cells) (offset columns j) cell.length = cell ∧
      (j + 1 < columns.length →
        slice (sep.intercalate cells) (offset columns j + cell.length) 3 = sep) := by
  obtain ⟨before, after, hs, hlength, hafter⟩ := exists_intercalate sep h
  rw [hcells, hsep] at hlength
  rw [hs, offset, ← hlength]
  refine ⟨slice_append before cell after, fun hj ↦ ?_⟩
  rw [← hcells, List.length_map] at hj
  obtain ⟨rest, rfl⟩ := hafter hj
  rw [← List.append_assoc, ← List.length_append, ← hsep]
  exact slice_append (before ++ cell) sep rest

end Columns

section Drawn

theorem Line.length_junction (line : Line) : line.junction.length = 3 := by
  cases line <;> rfl

theorem drawn_intercalate (line : Line) (hcells : cells.map List.length = columns)
    (hrow : ∀ row, line = .row row → ∀ (j n : Nat) (cell : String), columns[j]? = some n →
      row[j]? = some cell →
      cell.length ≤ n ∧ cells[j]? = some (List.replicate (n - cell.length) ' ' ++ cell.toList)) :
    Drawn columns line (line.junction.intercalate cells) where
  length := by
    rw [length_intercalate, hcells, line.length_junction, ← hcells, List.length_map]
  junction j n hn hj := by
    rw [← hcells, List.getElem?_map, Option.map_eq_some_iff] at hn
    obtain ⟨cell, hcell, rfl⟩ := hn
    exact (slice_intercalate line.length_junction hcells hcell).2 hj
  cell row hline j n cell hn hcell := by
    obtain ⟨hle, hjust⟩ := hrow row hline j n cell hn hcell
    have hslice := (slice_intercalate line.length_junction hcells hjust).1
    have hlength : (List.replicate (n - cell.length) ' ' ++ cell.toList).length = n := by
      rw [List.length_append, List.length_replicate, String.length_toList]
      omega
    rw [hlength] at hslice
    exact ⟨hle, hslice⟩

theorem drawn_rule {line : Line} {junction : String} (hj : junction.toList = line.junction)
    (hline : ∀ row, line ≠ .row row) : Drawn columns line (rule junction columns).toList := by
  rw [rule, String.toList_intercalate, hj]
  apply drawn_intercalate line
  · simp [Function.comp_def]
  · intro row h
    exact absurd h (hline row)

theorem toList_justify (n : Nat) (cell : String) :
    (justify n cell).toList = List.replicate (n - cell.length) ' ' ++ cell.toList := by
  rw [justify, String.toList_ofList, List.leftpad, String.length_toList]

theorem drawn_row (hlength : row.length = columns.length)
    (hle : ∀ (j n : Nat) (cell : String), columns[j]? = some n → row[j]? = some cell →
      cell.length ≤ n) :
    Drawn columns (.row row) (rowLine columns row).toList := by
  rw [rowLine, String.toList_intercalate]
  refine drawn_intercalate (.row row) ?_ ?_
  · apply List.ext_getElem
    · simp [hlength]
    · intro j _ hj
      have hcell : row[j]? = some row[j] := List.getElem?_eq_getElem (hlength ▸ hj)
      have hn := hle j columns[j] row[j] (List.getElem?_eq_getElem hj) hcell
      simp only [List.getElem_map, List.getElem_zipWith, String.length_toList, length_justify,
        max_eq_left hn]
  · intro row' h j n cell hn hcell
    obtain rfl := Line.row.inj h
    refine ⟨hle j n cell hn hcell, ?_⟩
    rw [List.getElem?_map, List.getElem?_zipWith, hn, hcell, Option.map_some, toList_justify]

end Drawn

section Plan

/-- The rows in order, and the dividers above some of them. -/
def body (rows : List (List String)) : List Line :=
  rows.zipIdx.flatMap fun r ↦ if r.2 % 5 = 1 then [.divider, .row r.1] else [.row r.1]

theorem body_concat (rows : List (List String)) (row : List String) : body (rows ++ [row]) =
    body rows ++ if rows.length % 5 = 1 then [.divider, .row row] else [.row row] := by
  simp [body, List.zipIdx_append]

theorem length_body (rows : List (List String)) :
    (body rows).length = rows.length + (rows.length + 3) / 5 := by
  induction rows using List.reverseRecOn with
  | nil => rfl
  | append_singleton rows row ih =>
    rw [body_concat, List.length_append, ih, List.length_append, List.length_singleton]
    split <;> simp <;> omega

theorem getElem?_body_row {r : Nat} (h : rows[r]? = some row) :
    (body rows)[r + (r + 4) / 5]? = some (.row row) := by
  induction rows using List.reverseRecOn with
  | nil => simp at h
  | append_singleton rows last ih =>
    rw [body_concat]
    by_cases hr : r < rows.length
    · rw [List.getElem?_append_left hr] at h
      rw [List.getElem?_append_left (by rw [length_body]; omega)]
      exact ih h
    · obtain ⟨hlt, -⟩ := List.getElem?_eq_some_iff.1 h
      rw [List.length_append, List.length_singleton] at hlt
      obtain rfl : r = rows.length := by omega
      obtain rfl : last = row := by simpa using h
      have hlength := length_body rows
      rw [List.getElem?_append_right (by omega), hlength]
      split
      · have hindex : rows.length + (rows.length + 4) / 5 -
            (rows.length + (rows.length + 3) / 5) = 1 := by omega
        rw [hindex]
        rfl
      · have hindex : rows.length + (rows.length + 4) / 5 -
            (rows.length + (rows.length + 3) / 5) = 0 := by omega
        rw [hindex]
        rfl

theorem getElem?_body_divider {i : Nat} : (body rows)[i]? = some .divider ↔
    ∃ k, i = 6 * k + 1 ∧ 5 * k + 1 < rows.length := by
  induction rows using List.reverseRecOn with
  | nil => simp [body]
  | append_singleton rows last ih =>
    have hlength := length_body rows
    have hadded : (if rows.length % 5 = 1 then [Line.divider, .row last] else [.row last])[
        i - (body rows).length]? = some .divider ↔
        rows.length % 5 = 1 ∧ i - (body rows).length = 0 := by
      split
      · generalize i - (body rows).length = d
        match d with
        | 0 => simp_all
        | 1 => simp
        | d + 2 => simp
      · simp_all [List.getElem?_singleton]
    rw [body_concat, List.length_append, List.length_singleton]
    by_cases hi : i < (body rows).length
    · rw [List.getElem?_append_left hi, ih]
      constructor
      · rintro ⟨k, rfl, hk⟩
        exact ⟨k, rfl, by omega⟩
      · rintro ⟨k, rfl, hk⟩
        exact ⟨k, rfl, by omega⟩
    · rw [List.getElem?_append_right (by omega), hadded]
      constructor
      · rintro ⟨hmod, hd⟩
        exact ⟨rows.length / 5, by omega, by omega⟩
      · rintro ⟨k, rfl, hk⟩
        omega

theorem planned_body (hne : rows ≠ []) : Planned rows (.top :: body rows ++ [.bottom]) where
  length := by
    have hpos := List.length_pos_iff.2 hne
    rw [List.cons_append, List.length_cons, List.length_append, length_body, List.length_singleton,
      Nat.ceilDiv_eq_add_pred_div]
    omega
  top := rfl
  bottom := by rw [List.cons_append, ← List.cons_append, List.getLast?_concat]
  row r cells h := by
    have hrow := getElem?_body_row h
    have hindex : lineOf r = r + (r + 4) / 5 + 1 := by
      rw [lineOf]
      omega
    obtain ⟨hlt, -⟩ := List.getElem?_eq_some_iff.1 hrow
    rw [List.cons_append, hindex, List.getElem?_cons_succ, List.getElem?_append_left hlt, hrow]
  divider i := by
    have hbottom (d : Nat) : (body rows ++ [Line.bottom])[d]? = some .divider ↔
        (body rows)[d]? = some .divider := by
      by_cases hd : d < (body rows).length
      · rw [List.getElem?_append_left hd]
      · rw [List.getElem?_append_right (by omega), List.getElem?_eq_none (by omega : _ ≤ d)]
        simp [List.getElem?_singleton]
    rw [List.cons_append]
    cases i with
    | zero => simp
    | succ d =>
      rw [List.getElem?_cons_succ, hbottom, getElem?_body_divider]
      constructor
      · rintro ⟨k, rfl, hk⟩
        exact ⟨k, by rw [lineOf]; omega, by rw [lineOf]; omega, hk⟩
      · rintro ⟨k, hi, -, hk⟩
        rw [lineOf] at hi
        exact ⟨k, by omega, hk⟩

end Plan

section Print

theorem drawn_bodyLines (hrow : Drawn columns (.row row) (rowLine columns row).toList)
    (index : Nat) : List.Forall₂ (Drawn columns)
      (if index % 5 = 1 then [.divider, .row row] else [.row row])
      ((bodyLines columns row index).map String.toList) := by
  have hdivider : Drawn columns .divider (rule "─┼─" columns).toList := drawn_rule rfl nofun
  rw [bodyLines]
  split
  · exact .cons hdivider (.cons hrow .nil)
  · exact .cons hrow .nil

theorem drawn_body (numbered : List (List String × Nat))
    (hrow : ∀ r ∈ numbered, Drawn columns (.row r.1) (rowLine columns r.1).toList) :
    List.Forall₂ (Drawn columns)
      (numbered.flatMap fun r ↦ if r.2 % 5 = 1 then [.divider, .row r.1] else [.row r.1])
      ((numbered.flatMap fun r ↦ bodyLines columns r.1 r.2).map String.toList) := by
  induction numbered with
  | nil => exact .nil
  | cons r numbered ih =>
    obtain ⟨hr, hrest⟩ := List.forall_mem_cons.1 hrow
    rw [List.flatMap_cons, List.flatMap_cons, List.map_append]
    exact List.rel_append (drawn_bodyLines hr r.2) (ih hrest)

theorem drawn_lines (hne : rows ≠ []) (hc : ∀ row ∈ rows, row.length = c) :
    List.Forall₂ (Drawn (widths rows)) (.top :: body rows ++ [.bottom])
      ((lines rows).map String.toList) := by
  have htop : Drawn (widths rows) .top (rule "─┬─" (widths rows)).toList := drawn_rule rfl nofun
  have hbottom : Drawn (widths rows) .bottom (rule "─┴─" (widths rows)).toList :=
    drawn_rule rfl nofun
  have hrow : ∀ r ∈ rows.zipIdx,
      Drawn (widths rows) (.row r.1) (rowLine (widths rows) r.1).toList := by
    intro r hr
    have hmem : r.1 ∈ rows := List.fst_mem_of_mem_zipIdx hr
    apply drawn_row
    · rw [hc r.1 hmem, length_widths hne hc]
    · intro j n cell hn hcell
      exact (isGreatest_widths hn).2 ⟨r.1, hmem, cell, hcell, rfl⟩
  rw [lines, List.map_append, List.map_cons]
  exact List.rel_append (.cons htop (drawn_body rows.zipIdx hrow)) (.cons hbottom .nil)

end Print

section Characters

variable {P : Char → Prop}

theorem forall_mem_intercalate (hsep : ∀ x ∈ sep, P x) (hcells : ∀ cell ∈ cells, ∀ x ∈ cell, P x) :
    ∀ x ∈ sep.intercalate cells, P x := by
  induction cells with
  | nil => simp
  | cons first cells ih =>
    obtain ⟨hfirst, hrest⟩ := List.forall_mem_cons.1 hcells
    by_cases hne : cells = []
    · simpa [hne] using hfirst
    · rw [List.intercalate_cons_of_ne_nil hne, List.forall_mem_append, List.forall_mem_append]
      exact ⟨⟨hfirst, hsep⟩, ih hrest⟩

theorem forall_mem_rule {junction : String} (hj : ∀ x ∈ junction.toList, P x) (hdash : P '─')
    (columns : List Nat) : ∀ x ∈ (rule junction columns).toList, P x := by
  rw [rule, String.toList_intercalate]
  refine forall_mem_intercalate hj ?_
  simp only [List.map_map, List.forall_mem_map, Function.comp_apply, String.toList_ofList]
  intro n _ x hx
  rwa [List.eq_of_mem_replicate hx]

/-- The characters of a drawn grid are those of its cells, blanks, and those that draw lines. -/
theorem forall_mem_lines (hmarks : ∀ x ∈ ['─', '┬', '┼', '┴', '│', ' '], P x)
    (hcells : ∀ row ∈ rows, ∀ cell ∈ row, ∀ x ∈ cell.toList, P x) :
    ∀ line ∈ lines rows, ∀ x ∈ line.toList, P x := by
  have hrule (junction : String) (hj : junction.toList ⊆ ['─', '┬', '┼', '┴', '│', ' ']) :
      ∀ x ∈ (rule junction (widths rows)).toList, P x :=
    forall_mem_rule (fun x hx ↦ hmarks x (hj hx)) (hmarks '─' (by simp)) (widths rows)
  have hrow : ∀ row ∈ rows, ∀ x ∈ (rowLine (widths rows) row).toList, P x := by
    intro row hr
    have hbar : " │ ".toList ⊆ ['─', '┬', '┼', '┴', '│', ' '] := by decide
    rw [rowLine, String.toList_intercalate]
    refine forall_mem_intercalate (fun x hx ↦ hmarks x (hbar hx)) ?_
    rw [List.forall_mem_map]
    intro justified hj
    obtain ⟨i, hi⟩ := List.mem_iff_getElem?.1 hj
    obtain ⟨n, cell, -, hcell, rfl⟩ := List.getElem?_zipWith_eq_some.1 hi
    rw [toList_justify, List.forall_mem_append]
    refine ⟨fun x hx ↦ ?_, hcells row hr cell (List.mem_of_getElem? hcell)⟩
    rw [List.eq_of_mem_replicate hx]
    exact hmarks ' ' (by simp)
  have hbody : ∀ line ∈ rows.zipIdx.flatMap fun r ↦ bodyLines (widths rows) r.1 r.2,
      ∀ x ∈ line.toList, P x := by
    rw [List.forall_mem_flatMap]
    intro r hr
    have hline := hrow r.1 (List.fst_mem_of_mem_zipIdx hr)
    rw [bodyLines]
    split
    · exact List.forall_mem_cons.2 ⟨hrule "─┼─" (by decide), List.forall_mem_singleton.2 hline⟩
    · exact List.forall_mem_singleton.2 hline
  rw [lines, List.forall_mem_append, List.forall_mem_cons, List.forall_mem_singleton]
  exact ⟨⟨hrule "─┬─" (by decide), hbody⟩, hrule "─┴─" (by decide)⟩

theorem toList_draw (rows : List (List String)) :
    (draw rows).toList = ((lines rows).map String.toList).flatMap (· ++ ['\n']) := by
  have hfeed : "\n".toList = ['\n'] := rfl
  rw [draw, String.toList_join, List.flatMap_map, List.flatMap_map]
  simp only [String.toList_append, hfeed]

theorem splitOn_draw (hcells : ∀ row ∈ rows, ∀ cell ∈ row, '\n' ∉ cell.toList) :
    (draw rows).toList.splitOn '\n' = (lines rows).map String.toList ++ [[]] := by
  have hlines : ∀ line ∈ (lines rows).map String.toList, '\n' ∉ line := by
    rw [List.forall_mem_map]
    intro line hl hx
    have hne := forall_mem_lines (P := (· ≠ '\n')) (by simp)
      (fun row hr cell hc x hx he ↦ hcells row hr cell hc (he ▸ hx)) line hl
    exact hne '\n' hx rfl
  have hsplit := Text.splitOn_flatMap hlines []
  rwa [List.append_nil, ← toList_draw] at hsplit

end Characters

/-- A grid without rows, or with rows of different lengths, is refused, and nothing is drawn. Any
other grid, its cells without feeds, is drawn as planned, each line over columns that are as wide as
their widest cells. -/
theorem print_geometry (rows : List (List String)) :
    ((rows = [] ∨ ∃ row ∈ rows, ∃ row' ∈ rows, row.length ≠ row'.length) →
      print rows = .error ⟨rows.map List.length⟩) ∧
    ∀ c, rows ≠ [] → (∀ row ∈ rows, row.length = c) →
      (∀ row ∈ rows, ∀ cell ∈ row, '\n' ∉ cell.toList) →
      ∃ (text : String) (columns : List Nat) (plan : List Line) (drawn : List (List Char)),
        print rows = .ok text ∧
        text.toList.splitOn '\n' = drawn ++ [[]] ∧
        ((∀ row ∈ rows, ∀ cell ∈ row, Text.Unbroken cell.toList) →
          Text.splitLines text.toList = drawn) ∧
        columns.length = c ∧
        (∀ j n, columns[j]? = some n → IsGreatest (cellLengths rows j) n) ∧
        Planned rows plan ∧
        List.Forall₂ (Drawn columns) plan drawn := by
  refine ⟨fun h ↦ ?_, fun c hne hc hfeed ↦ ?_⟩
  · rw [print, if_neg]
    rw [isEven_iff]
    rintro ⟨n, hne, hn⟩
    rcases h with h | ⟨row, hr, row', hr', hlength⟩
    · exact hne h
    · exact hlength ((hn row hr).trans (hn row' hr').symm)
  · refine ⟨draw rows, widths rows, .top :: body rows ++ [.bottom],
      (lines rows).map String.toList, print_eq_ok (isEven_iff.2 ⟨c, hne, hc⟩), splitOn_draw hfeed,
      ?_, length_widths hne hc, fun j n ↦ isGreatest_widths, planned_body hne, drawn_lines hne hc⟩
    intro hbreak
    rw [toList_draw]
    apply Text.splitLines_flatMap
    rw [List.forall_mem_map]
    exact forall_mem_lines (P := fun x ↦ Text.isBreak x = false) (by simp [Text.isBreak]) hbreak

theorem print_geometry_seven :
    let rows := List.replicate 7 ["a", "bc"]
    print [["a"], []] = .error ⟨[1, 0]⟩ ∧
    rows ≠ [] ∧ (∀ row ∈ rows, row.length = 2) ∧
    (∀ row ∈ rows, ∀ cell ∈ row, '\n' ∉ cell.toList) ∧
    ∃ (text : String) (drawn : List (List Char)),
      print rows = .ok text ∧ text.toList.splitOn '\n' = drawn ++ [[]] ∧ drawn.length = 11 := by
  intro rows
  have huneven := (print_geometry [["a"], []]).1
    (.inr ⟨["a"], by decide, [], by decide, by decide⟩)
  have hne : rows ≠ [] := List.cons_ne_nil _ _
  have hc : ∀ row ∈ rows, row.length = 2 := by decide
  have hfeed : ∀ row ∈ rows, ∀ cell ∈ row, '\n' ∉ cell.toList := by decide
  obtain ⟨text, columns, plan, drawn, hprint, hsplit, -, -, -, hplan, hdrawn⟩ :=
    (print_geometry rows).2 2 hne hc hfeed
  have hlines : rows.length + 2 + (rows.length - 1) ⌈/⌉ 5 = 11 := by
    have hlength : rows.length = 7 := List.length_replicate
    rw [hlength, Nat.ceilDiv_eq_add_pred_div]
  exact ⟨huneven, hne, hc, hfeed, text, drawn, hprint, hsplit,
    hdrawn.length_eq.symm.trans (hplan.length.trans hlines)⟩

end Recognizer.Grid
