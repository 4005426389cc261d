import Recognizer.Automaton.Report
import Recognizer.Proofs.Escaping
import Recognizer.Proofs.Geometry
/-!
Displayed edges read back. A line of the grid is taken apart at its blanks: no cell holds one, so
each cell is one piece however wide its column is, and a line of seven pieces is a row of an edge.
Main statement: the edges, with their indices, are read back from the text, so that two automata are
displayed alike only if they have the same edges.
-/

namespace Recognizer

namespace Text

/-- A text that a line keeps in one piece: neither blanks nor feeds take it apart. -/
structure OnePiece (s : List Char) : Prop where
  ne_nil : s ≠ []
  blank : ' ' ∉ s
  feed : '\n' ∉ s

/-- What stands between the blanks of a line. -/
def pieces (line : List Char) : List (List Char) := (line.splitOn ' ').filter (· ≠ [])

def number? (s : List Char) : Option Nat :=
  if s.all Char.isDigit then some (Nat.ofDigitChars 10 s 0) else none

/-- The character that is shown so. A backslash alone shows itself; before more, it begins an
escape, and the letter behind it only says how many digits follow. -/
def shown? : List Char → Option Char
  | [c] => some c
  | '\\' :: _ :: digits => (Code.hexNumber? digits).bind Code.scalar?
  | _ => none

end Text

/-- The state that reports give a name; see `State.label`. -/
def State.named? (name : List Char) : Option State :=
  if name = ['F', 'I', 'N', 'A', 'L'] then some final
  else if name = ['F', 'A', 'I', 'L'] then some fail
  else Text.number? name

/-- The edge that a line shows, and its index, if the line is a row of an edge. -/
def Edge.read? (line : List Char) : Option (Edge × Nat) :=
  match Text.pieces line with
  | [index, ['│'], source, ['│'], symbol, ['│'], destination] => do
    let index ← Text.number? index
    let source ← State.named? source
    let symbol ← Text.shown? symbol
    let destination ← State.named? destination
    return (⟨source, symbol, destination⟩, index)
  | _ => none

def Automaton.readTable (text : List Char) : List (Edge × Nat) :=
  (text.splitOn '\n').filterMap Edge.read?

namespace Text

variable {s t digits : List Char} {columns : List Nat} {row : List String}

section Cells

theorem OnePiece.append (hs : OnePiece s) (ht : OnePiece t) : OnePiece (s ++ t) where
  ne_nil := List.append_ne_nil_of_left_ne_nil hs.ne_nil t
  blank := by simp [hs.blank, ht.blank]
  feed := by simp [hs.feed, ht.feed]

theorem onePiece_of_hexNumber? {n : Nat} (hne : digits ≠ []) (h : Code.hexNumber? digits = some n) :
    OnePiece digits := by
  have hnotMem (d : Char) (hd : Code.hexValue? d = none) : d ∉ digits := by
    intro hm
    obtain ⟨k, hk⟩ := Code.exists_hexValue? h hm
    exact Code.ne_of_hexValue? hk hd rfl
  exact ⟨hne, hnotMem ' ' (by decide), hnotMem '\n' (by decide)⟩

theorem onePiece_toDigits (n : Nat) : OnePiece (Nat.toDigits 10 n) := by
  have hnotMem (d : Char) (hd : d.isDigit = false) : d ∉ Nat.toDigits 10 n := by
    intro hm
    exact absurd ((Code.isDigit_of_mem_number hm).symm.trans hd) nofun
  exact ⟨Nat.toDigits_ne_nil, hnotMem ' ' (by decide), hnotMem '\n' (by decide)⟩

theorem number?_toDigits (n : Nat) : number? (Nat.toDigits 10 n) = some n := by
  rw [number?, if_pos (Code.all_isDigit_toDigits n), Nat.ofDigitChars_ten_toDigits]

theorem hexNumber?_paddedHex (width n : Nat) : Code.hexNumber? (paddedHex width n) = some n := by
  rw [paddedHex, List.leftpad]
  induction width - (hex n).length with
  | zero => exact Code.hexNumber?_hex n
  | succ zeros ih => exact ih

/-- A code point is escaped by a letter and the digits of its number, after as many zeros as the
letter asks for. -/
theorem exists_codeEscape (c : Char) : ∃ letter width,
    OnePiece ['\\', letter] ∧ codeEscape c = '\\' :: letter :: paddedHex width c.toNat := by
  unfold codeEscape
  split
  · exact ⟨'x', 2, ⟨by decide, by decide, by decide⟩, rfl⟩
  · split
    · exact ⟨'u', 4, ⟨by decide, by decide, by decide⟩, rfl⟩
    · exact ⟨'U', 8, ⟨by decide, by decide, by decide⟩, rfl⟩

theorem paddedHex_ne_nil (width n : Nat) : paddedHex width n ≠ [] :=
  List.append_ne_nil_of_right_ne_nil _ Nat.toDigits_ne_nil

theorem onePiece_codeEscape (c : Char) : OnePiece (codeEscape c) := by
  obtain ⟨letter, width, hletter, hc⟩ := exists_codeEscape c
  rw [hc]
  exact hletter.append
    (onePiece_of_hexNumber? (paddedHex_ne_nil width c.toNat) (hexNumber?_paddedHex width c.toNat))

theorem shown?_codeEscape (c : Char) : shown? (codeEscape c) = some c := by
  obtain ⟨letter, width, -, hc⟩ := exists_codeEscape c
  rw [hc, shown?, hexNumber?_paddedHex, Option.bind_some, Code.scalar?_toNat]

theorem onePiece_visible (c : Char) : OnePiece (visible c).toList := by
  unfold visible
  split
  · next h =>
    rw [Bool.and_eq_true, Bool.not_eq_true'] at h
    have hblank (d : Char) (hd : isBlank d) : d ∉ [c] := by
      rw [List.mem_singleton]
      rintro rfl
      exact absurd (hd.symm.trans h.2) nofun
    rw [String.toList_ofList]
    exact ⟨List.cons_ne_nil c [], hblank ' ' (by decide), hblank '\n' (by decide)⟩
  · rw [String.toList_ofList]
    exact onePiece_codeEscape c

theorem shown?_visible (c : Char) : shown? (visible c).toList = some c := by
  unfold visible
  split
  · rw [String.toList_ofList, shown?]
  · rw [String.toList_ofList, shown?_codeEscape]

end Cells

section Pieces

theorem pieces_append (s t : List Char) : pieces (s ++ ' ' :: t) = pieces s ++ pieces t := by
  rw [pieces, List.splitOn_append_cons_self, List.filter_append, pieces, pieces]

theorem pieces_blanks (n : Nat) (s : List Char) :
    pieces (List.replicate n ' ' ++ s) = pieces s := by
  induction n with
  | zero => rfl
  | succ n ih => exact (pieces_append [] (List.replicate n ' ' ++ s)).trans ih

theorem pieces_eq (hne : s ≠ []) (h : ' ' ∉ s) : pieces s = [s] := by
  rw [pieces, List.splitOn_eq_singleton h]
  simp [hne]

theorem pieces_intercalate (cells : List (List Char)) :
    pieces ([' ', '│', ' '].intercalate cells) = [['│']].intercalate (cells.map pieces) := by
  induction cells with
  | nil => rfl
  | cons first cells ih =>
    by_cases hne : cells = []
    · rw [hne, List.intercalate_singleton, List.map_singleton, List.intercalate_singleton]
    · have hbar : pieces ('│' :: ' ' :: [' ', '│', ' '].intercalate cells) =
          ['│'] :: pieces ([' ', '│', ' '].intercalate cells) := pieces_append ['│'] _
      rw [List.intercalate_cons_of_ne_nil hne, List.append_assoc, List.map_cons,
        List.intercalate_cons_of_ne_nil (by simpa using hne), ← ih, List.append_assoc,
        List.singleton_append, ← hbar]
      exact pieces_append first _

/-- However wide the columns are, a row gives the pieces of its cells and the lines between. -/
theorem pieces_rowLine (h : row.length ≤ columns.length) :
    pieces (Grid.rowLine columns row).toList =
      [['│']].intercalate (row.map fun cell ↦ pieces cell.toList) := by
  have hcells : (List.zipWith Grid.justify columns row).map (fun cell ↦ pieces cell.toList) =
      row.map fun cell ↦ pieces cell.toList := by
    rw [← List.map_uncurry_zip_eq_zipWith, List.map_map]
    calc
      _ = (columns.zip row).map ((fun cell ↦ pieces cell.toList) ∘ Prod.snd) := by
        refine List.map_congr_left fun r _ ↦ ?_
        simp [Function.uncurry, Grid.toList_justify, pieces_blanks]
      _ = row.map fun cell ↦ pieces cell.toList := by
        rw [← List.map_map, List.map_snd_zip h]
  rw [Grid.rowLine, String.toList_intercalate]
  refine (pieces_intercalate _).trans ?_
  rw [List.map_map, ← hcells]
  rfl

end Pieces

end Text

namespace State

theorem toList_label (q : State) : (label q).toList =
    if q = final then ['F', 'I', 'N', 'A', 'L'] else if q = fail then ['F', 'A', 'I', 'L']
    else Nat.toDigits 10 q := by
  have hnat : (toString (q : Int)).toList = Nat.toDigits 10 q := Code.toList_number q
  unfold label
  simp only [Nat.cast_inj]
  split
  · rfl
  · split
    · rfl
    · exact hnat

theorem onePiece_label (q : State) : Text.OnePiece (label q).toList := by
  rw [toList_label]
  split
  · exact ⟨by decide, by decide, by decide⟩
  · split
    · exact ⟨by decide, by decide, by decide⟩
    · exact Text.onePiece_toDigits q

theorem named?_label (q : State) : named? (label q).toList = some q := by
  have hdigits (n : Nat) (c : Char) (s : List Char) (hc : c.isDigit = false) :
      Nat.toDigits 10 n ≠ c :: s := by
    intro h
    have hmem : c ∈ Nat.toDigits 10 n := h ▸ List.mem_cons_self
    exact absurd ((Code.isDigit_of_mem_number hmem).symm.trans hc) nofun
  rw [toList_label]
  split
  · next h => rw [h]; rfl
  · split
    · next h => rw [h]; rfl
    · rw [named?, if_neg (hdigits q _ _ rfl), if_neg (hdigits q _ _ rfl), Text.number?_toDigits]

end State

namespace Automaton

variable {columns : List Nat}

theorem onePiece_edgeRow (e : Edge) (index : Nat) :
    ∀ cell ∈ edgeRow e index, Text.OnePiece cell.toList := by
  simp only [edgeRow, List.forall_mem_cons, Code.toList_number]
  exact ⟨Text.onePiece_toDigits index, State.onePiece_label e.source,
    Text.onePiece_visible e.symbol, State.onePiece_label e.destination, List.forall_mem_nil _⟩

theorem pieces_edgeRow (h : columns.length = 4) (e : Edge) (index : Nat) :
    Text.pieces (Grid.rowLine columns (edgeRow e index)).toList =
      [Nat.toDigits 10 index, ['│'], (State.label e.source).toList, ['│'],
        (Text.visible e.symbol).toList, ['│'], (State.label e.destination).toList] := by
  have hle : (edgeRow e index).length ≤ columns.length := h.ge
  have hcells : (edgeRow e index).map (fun cell ↦ Text.pieces cell.toList) =
      (edgeRow e index).map fun cell ↦ [cell.toList] := by
    refine List.map_congr_left fun cell hc ↦ ?_
    have hpiece := onePiece_edgeRow e index cell hc
    exact Text.pieces_eq hpiece.ne_nil hpiece.blank
  rw [Text.pieces_rowLine hle, hcells, ← Code.toList_number]
  rfl

theorem read?_edgeRow (h : columns.length = 4) (e : Edge) (index : Nat) :
    Edge.read? (Grid.rowLine columns (edgeRow e index)).toList = some (e, index) := by
  simp [Edge.read?, pieces_edgeRow h, Text.number?_toDigits, State.named?_label,
    Text.shown?_visible]

/-- The first cell of the heading is empty, so a piece is missing. -/
theorem read?_heading (h : columns.length = 4) :
    Edge.read? (Grid.rowLine columns heading).toList = none := by
  have hle : heading.length ≤ columns.length := h.ge
  rw [Edge.read?, Text.pieces_rowLine hle]
  rfl

theorem read?_of_notMem {line : List Char} (h : ' ' ∉ line) : Edge.read? line = none := by
  by_cases hne : line = []
  · rw [hne]
    rfl
  · rw [Edge.read?, Text.pieces_eq hne h]

theorem read?_rule {junction : String} (hj : ' ' ∉ junction.toList) (columns : List Nat) :
    Edge.read? (Grid.rule junction columns).toList = none := by
  apply read?_of_notMem
  intro hm
  exact Grid.forall_mem_rule (P := (· ≠ ' ')) (fun _ hx ↦ ne_of_mem_of_not_mem hx hj) (by decide)
    columns ' ' hm rfl

/-- Dividers show no edge, so what the lines of a row show does not depend on where the row is. -/
theorem filterMap_bodyLines (columns : List Nat) (row : List String) (index : Nat) :
    ((Grid.bodyLines columns row index).map String.toList).filterMap Edge.read? =
      (Edge.read? (Grid.rowLine columns row).toList).toList := by
  have hdivider : Edge.read? (Grid.rule "─┼─" columns).toList = none :=
    read?_rule (by decide) columns
  rw [List.filterMap_eq_flatMap_toList, Grid.bodyLines]
  split <;> simp [hdivider]

theorem filterMap_lines (rows : List (List String)) :
    ((Grid.lines rows).map String.toList).filterMap Edge.read? =
      rows.filterMap fun row ↦ Edge.read? (Grid.rowLine (Grid.widths rows) row).toList := by
  have htop : Edge.read? (Grid.rule "─┬─" (Grid.widths rows)).toList = none :=
    read?_rule (by decide) _
  have hbottom : Edge.read? (Grid.rule "─┴─" (Grid.widths rows)).toList = none :=
    read?_rule (by decide) _
  have hbody : ((rows.zipIdx.flatMap fun r ↦ Grid.bodyLines (Grid.widths rows) r.1 r.2).map
      String.toList).filterMap Edge.read? =
      rows.zipIdx.flatMap fun r ↦
        (Edge.read? (Grid.rowLine (Grid.widths rows) r.1).toList).toList := by
    rw [List.map_flatMap, List.filterMap_flatMap]
    simp only [filterMap_bodyLines]
  have hfst (f : List String → List (Edge × Nat)) :
      rows.zipIdx.flatMap (fun r ↦ f r.1) = rows.flatMap f := by
    conv_rhs => rw [← List.zipIdx_map_fst 0 rows, List.flatMap_map]
  rw [Grid.lines, List.map_append, List.map_cons, List.filterMap_append,
    List.filterMap_cons_none htop, hbody, List.map_singleton, List.filterMap_cons_none hbottom,
    List.filterMap_nil, List.append_nil, List.filterMap_eq_flatMap_toList]
  exact hfst fun row ↦ (Edge.read? (Grid.rowLine (Grid.widths rows) row).toList).toList

theorem length_widths_table (a : Automaton) : (Grid.widths a.table).length = 4 := by
  refine Grid.length_widths (List.cons_ne_nil _ _) ?_
  rw [table, List.forall_mem_cons, List.forall_mem_map]
  exact ⟨rfl, fun _ _ ↦ rfl⟩

theorem feed_notMem_table (a : Automaton) :
    ∀ row ∈ a.table, ∀ cell ∈ row, '\n' ∉ cell.toList := by
  rw [table, List.forall_mem_cons, List.forall_mem_map]
  exact ⟨by decide, fun r _ cell hc ↦ (onePiece_edgeRow r.1 r.2 cell hc).feed⟩

theorem readTable_display (a : Automaton) : readTable a.display.toList = a.edges.zipIdx := by
  have hcolumns := a.length_widths_table
  calc
    _ = a.table.filterMap fun row ↦ Edge.read? (Grid.rowLine (Grid.widths a.table) row).toList := by
      rw [readTable, display, Grid.splitOn_draw a.feed_notMem_table, List.filterMap_append,
        filterMap_lines]
      exact List.append_nil _
    _ = a.edges.zipIdx.filterMap some := by
      generalize Grid.widths a.table = columns at hcolumns
      rw [table, List.filterMap_cons, read?_heading hcolumns, List.filterMap_map]
      exact List.filterMap_congr fun r _ ↦ read?_edgeRow hcolumns r.1 r.2
    _ = a.edges.zipIdx := List.filterMap_some

/-- Whatever the symbols are, a display is drawn, the edges are read back from it in order, and so
displays are the same only where edges are. -/
theorem read_display (a : Automaton) :
    (∀ e ∈ a.edges, Text.showing? [e.symbol] = some (Text.visible e.symbol)) ∧
    Grid.print a.table = .ok a.display ∧
    readTable a.display.toList = a.edges.zipIdx ∧
    ∀ b : Automaton, a.display = b.display ↔ a.edges = b.edges := by
  refine ⟨fun e _ ↦ Text.showing?_singleton e.symbol, a.print_table, a.readTable_display,
    fun b ↦ ⟨fun h ↦ ?_, fun h ↦ ?_⟩⟩
  · have hzip : a.edges.zipIdx = b.edges.zipIdx := by
      rw [← a.readTable_display, ← b.readTable_display, h]
    rw [← List.zipIdx_map_fst 0 a.edges, ← List.zipIdx_map_fst 0 b.edges, hzip]
  · rw [display, display, table, table, h]

end Automaton

end Recognizer
