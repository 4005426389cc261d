import Recognizer.Proofs.Breaks
import Recognizer.Proofs.Parts
/-!
The nesting of the code, told from its lines alone: a line opens a bracket with its last character
and closes one with its first. Main statements: steps whose bodies stand between such lines are
printed at the depth that the lines before them say; the code is of such steps, whatever its symbols
and words.
-/

namespace Recognizer

namespace Layout

def opens (line : List Char) : Bool := line.getLast? = some '\x7b' ∨ line.getLast? = some '['

/-- Indented or not. -/
def closes (line : List Char) : Bool :=
  (unindented line).head? = some '\x7d' ∨ (unindented line).head? = some ']'

def leading (line : List Char) : Nat := (line.takeWhile (· = ' ')).length

/-- A text that begins with no blank, and whether it closes and opens a bracket. -/
def Delimits (closing opening : Bool) (text : String) : Prop :=
  text.toList.head? ≠ some ' ' ∧ closes text.toList = closing ∧ opens text.toList = opening

instance (closing opening : Bool) : DecidablePred (Delimits closing opening) :=
  fun _ ↦ inferInstanceAs (Decidable (_ ∧ _ ∧ _))

/-- Steps whose bodies stand each between a line that opens and a line that closes. The first line
closes just if `opened`, and the last one does not open. -/
inductive Nested : Bool → List Step → Prop
  | nil : Nested false []
  | line {closing opening : Bool} {text : String} {steps : List Step} :
      Delimits closing opening text → Nested opening steps → Nested closing (.line text :: steps)
  | indented {body steps : List Step} : Nested false body → Nested true steps →
      Nested true (.indented body :: steps)

/-- Lines at the depths that their brackets say, from `m` open brackets to `n`. -/
def Levels (m : Nat) : List (Nat × String) → Nat → Prop
  | [], n => m = n
  | (depth, text) :: lines, n => m = depth + (closes text.toList).toNat ∧
    Levels (depth + (opens text.toList).toNat) lines n

variable {steps more body : List Step} {opened closing opening : Bool} {text : String}
  {lines rest : List (Nat × String)} {m n : Nat}

section Delimits

theorem unindented_of_head? {line : List Char} (h : line.head? ≠ some ' ') :
    unindented line = line := by
  cases line with
  | nil => rfl
  | cons c line =>
    have hc : c ≠ ' ' := by simpa using h
    simp [unindented, hc]

theorem delimits_of_ends (first last : Char) (hfirst : text.toList.head? = some first)
    (hlast : text.toList.getLast? = some last) (hblank : first ≠ ' ') :
    Delimits (first = '\x7d' ∨ first = ']') (last = '\x7b' ∨ last = '[') text := by
  have hne : text.toList.head? ≠ some ' ' := by simpa [hfirst] using hblank
  refine ⟨hne, ?_, ?_⟩
  · simp [closes, unindented_of_head? hne, hfirst]
  · simp [opens, hlast]

end Delimits

section Nested

theorem nested_line (h : Delimits closing (opens text.toList) text) :
    Nested closing (.line text :: steps) ↔ Nested (opens text.toList) steps := by
  refine ⟨?_, .line h⟩
  rintro (_ | ⟨⟨-, -, rfl⟩, hsteps⟩)
  exact hsteps

theorem nested_indented :
    Nested true (.indented body :: steps) ↔ Nested false body ∧ Nested true steps :=
  ⟨fun | .indented hbody hsteps => ⟨hbody, hsteps⟩, fun h ↦ .indented h.1 h.2⟩

theorem Nested.append (h : Nested opened steps) (hm : Nested false more) :
    Nested opened (steps ++ more) := by
  induction h with
  | nil => exact hm
  | line hd _ ih => exact .line hd ih
  | indented hb _ _ ih => exact .indented hb ih

theorem nested_flatMap {α : Type} {f : α → List Step} (h : ∀ x, Nested false (f x))
    (xs : List α) : Nested false (xs.flatMap f) := by
  induction xs with
  | nil => exact .nil
  | cons x xs ih => exact (h x).append ih

theorem nested_map {α : Type} {f : α → Step} (h : ∀ x, Nested false [f x]) (xs : List α) :
    Nested false (xs.map f) := by
  rw [List.map_eq_flatMap]
  exact nested_flatMap h xs

end Nested

section Levels

theorem levels_append : Levels m (lines ++ rest) n ↔ ∃ p, Levels m lines p ∧ Levels p rest n := by
  induction lines generalizing m with
  | nil => simp [Levels]
  | cons line lines ih => simp [Levels, ih, and_assoc]

/-- Nested steps are printed at the depths that their brackets say. -/
theorem Nested.levels (h : Nested opened steps) (depth : Nat) :
    Levels (depth + opened.toNat) (outline depth steps) depth := by
  induction h generalizing depth with
  | nil => rfl
  | line hd _ ih =>
    obtain ⟨-, hcloses, hopens⟩ := hd
    exact ⟨by rw [hcloses], by rw [hopens]; exact ih depth⟩
  | indented _ _ ihb ih => exact levels_append.2 ⟨depth + 1, ihb (depth + 1), ih depth⟩

theorem Nested.head?_ne (h : Nested opened steps) :
    AllLines (fun text ↦ text.toList.head? ≠ some ' ') steps := by
  induction h with
  | nil => exact allLines_nil
  | line hd _ ih => exact allLines_line.2 ⟨hd.1, ih⟩
  | indented _ _ ihb ih => exact allLines_indented.2 ⟨ihb, ih⟩

theorem countP_cons_toNat {α : Type} (p : α → Bool) (x : α) (xs : List α) :
    (x :: xs).countP p = xs.countP p + (p x).toNat := by
  cases h : p x <;> simp [h]

/-- What is opened, and what has been open before, is closed or stays open. -/
theorem Levels.count (h : Levels m lines n) : m + lines.countP (opens ·.2.toList) =
    n + lines.countP (closes ·.2.toList) := by
  induction lines generalizing m with
  | nil => simpa [Levels] using h
  | cons line lines ih =>
    obtain ⟨hm, hlines⟩ := h
    have hcount := ih hlines
    rw [countP_cons_toNat, countP_cons_toNat]
    omega

/-- The depth of a line is the number of brackets opened above it and not closed down to it. -/
theorem Nested.count_above (h : Nested false steps) {depth : Nat}
    (hs : outline 0 steps = lines ++ (depth, text) :: rest) :
    depth + (lines ++ [(depth, text)]).countP (closes ·.2.toList) =
      lines.countP (opens ·.2.toList) := by
  have hlevels := h.levels 0
  rw [hs, levels_append] at hlevels
  obtain ⟨p, hlines, hp, -⟩ := hlevels
  have hcount := hlines.count
  have hline : [(depth, text)].countP (closes ·.2.toList) = (closes text.toList).toNat := by
    rw [countP_cons_toNat, List.countP_nil, Nat.zero_add]
  simp only [Bool.toNat_false, Nat.zero_add] at hcount
  rw [List.countP_append, hline, hcount, hp]
  omega

end Levels

section Place

theorem opens_place (width : Int) (depth : Nat) (text : String) :
    opens (place width depth text).toList = opens text.toList := by
  rw [toList_place]
  by_cases h : text.toList = []
  · rw [h, indented_nil]
  · rw [indented_of_ne_nil _ h, opens, List.getLast?_append_of_ne_nil _ h, opens]

theorem closes_place (width : Int) (depth : Nat) (text : String) :
    closes (place width depth text).toList = closes text.toList := by
  rw [toList_place]
  by_cases h : text.toList = []
  · rw [h, indented_nil]
  · rw [indented_of_ne_nil _ h, closes, unindented, List.dropWhile_append_of_pos, closes,
      unindented]
    simp

theorem leading_place (hne : text ≠ "") (h : text.toList.head? ≠ some ' ') (width : Int)
    (depth : Nat) : leading (place width depth text).toList = (depth * width).toNat := by
  have htake : text.toList.takeWhile (· = ' ') = [] := by
    cases hs : text.toList with
    | nil => rfl
    | cons c s =>
      rw [hs] at h
      simpa using h
  rw [toList_place, indented_of_ne_nil _ (by simpa using hne), leading,
    List.takeWhile_append_of_pos (by simp), htake, List.append_nil, List.length_replicate]

theorem countP_opens_placed (width : Int) (lines : List (Nat × String)) :
    ((placed width lines).map String.toList).countP opens =
      lines.countP (opens ·.2.toList) := by
  simp only [placed, List.countP_map, Function.comp_def, opens_place]

theorem countP_closes_placed (width : Int) (lines : List (Nat × String)) :
    ((placed width lines).map String.toList).countP closes =
      lines.countP (closes ·.2.toList) := by
  simp only [placed, List.countP_map, Function.comp_def, closes_place]

/-- As many brackets are closed as are opened. -/
theorem Nested.countP_eq (h : Nested false steps) (width : Int) :
    ((placed width (outline 0 steps)).map String.toList).countP opens =
      ((placed width (outline 0 steps)).map String.toList).countP closes := by
  have hcount := (h.levels 0).count
  rwa [Bool.toNat_false, Nat.zero_add, Nat.zero_add, ← countP_opens_placed width,
    ← countP_closes_placed width] at hcount

theorem exists_of_placed {width : Int} {above below : List (List Char)} {line : List Char}
    (h : (placed width lines).map String.toList = above ++ line :: below) :
    ∃ upper depth text lower, lines = upper ++ (depth, text) :: lower ∧
      (placed width upper).map String.toList = above ∧ (place width depth text).toList = line := by
  rw [placed, List.map_map, List.map_eq_append_iff] at h
  obtain ⟨upper, _, rfl, habove, hrest⟩ := h
  obtain ⟨⟨depth, text⟩, lower, rfl, hline, -⟩ := List.map_eq_cons_iff.1 hrest
  exact ⟨upper, depth, text, lower, rfl, by rw [placed, List.map_map, habove], hline⟩

/-- The leading spaces of a line are those of the brackets that are opened above it and not closed
down to it. -/
theorem Nested.leading_eq (h : Nested false steps) (width : Nat) {above below : List (List Char)}
    {line : List Char}
    (hs : (placed width (outline 0 steps)).map String.toList = above ++ line :: below) :
    (above ++ [line]).countP closes ≤ above.countP opens ∧ (line ≠ [] →
      leading line = width * (above.countP opens - (above ++ [line]).countP closes)) := by
  obtain ⟨upper, depth, text, lower, ho, rfl, rfl⟩ := exists_of_placed hs
  have hdown : (placed width upper).map String.toList ++ [(place width depth text).toList] =
      (placed width (upper ++ [(depth, text)])).map String.toList := by
    rw [placed_append, List.map_append]
    rfl
  have hcount := h.count_above ho
  rw [hdown, countP_opens_placed, countP_closes_placed, ← hcount, Nat.add_sub_cancel]
  refine ⟨Nat.le_add_left _ depth, fun hne ↦ ?_⟩
  have htext : text ≠ "" := by
    rintro rfl
    exact hne rfl
  have hhead : text.toList.head? ≠ some ' ' := h.head?_ne (depth, text) (by simp [ho])
  rw [leading_place htext hhead, ← Int.natCast_mul, Int.toNat_natCast, Nat.mul_comm]

end Place

end Layout

namespace Code

open Layout

variable (a : Blueprint)

/-- A text inserted into another one is itself. -/
theorem toString_text (s : String) : toString s = s := rfl

theorem exists_digit (q : State) : ∃ d, (toString q).toList.head? = some d ∧ d.isDigit := by
  obtain ⟨d, s, hdigits⟩ := List.exists_cons_of_ne_nil (Nat.toDigits_ne_nil (n := q) (b := 10))
  have hd : d ∈ Nat.toDigits 10 q := hdigits ▸ List.mem_cons_self
  exact ⟨d, by rw [toList_number, hdigits, List.head?_cons], isDigit_of_mem_number hd⟩

/-- A line that neither closes nor opens, by its first and last characters. -/
theorem nested_single {text : String} (first last : Char)
    (hfirst : text.toList.head? = some first) (hlast : text.toList.getLast? = some last)
    (hf : first ≠ ' ' ∧ first ≠ '\x7d' ∧ first ≠ ']') (hl : last ≠ '\x7b' ∧ last ≠ '[') :
    Nested false [.line text] := by
  have hd := delimits_of_ends first last hfirst hlast hf.1
  simp only [hf.2, hl, decide_false, or_self] at hd
  exact .line hd .nil

theorem nested_dispatchArm (q : State) : Nested false [dispatchArm q] := by
  obtain ⟨d, hd, hdigit⟩ := exists_digit q
  have hne : d ≠ ' ' ∧ d ≠ '\x7d' ∧ d ≠ ']' := by
    refine ⟨?_, ?_, ?_⟩ <;> (rintro rfl; exact absurd hdigit (by decide))
  rw [dispatchArm]
  split
  · refine nested_single d ',' ?_ ?_ hne (by decide)
    · simp only [String.toList_append, List.head?_append, hd, Option.some_or]
    · simp only [String.toList_append, List.getLast?_append]
      rfl
  · refine nested_single d ',' ?_ ?_ hne (by decide)
    · simp only [String.toList_append, List.head?_append, hd, Option.some_or]
    · simp only [String.toList_append, List.getLast?_append]
      rfl

theorem nested_edgeArm (edge : Char × State) : Nested false [edgeArm edge] := by
  refine nested_single '\'' ',' ?_ ?_ (by decide) (by decide)
  · simp [charLiteral, toString_text]
  · simp only [String.toList_append, List.getLast?_append]
    rfl

theorem nested_consume : Nested false (consume a) := by
  have harms : Nested false (a.states.map dispatchArm ++ [.line "_ => unreachable!(),"]) :=
    (nested_map nested_dispatchArm a.states).append (.line (by decide) .nil)
  simp (disch := decide) [consume, nested_line, nested_indented, Nested.nil, harms, opens]

theorem nested_stateFunction (q : Int) (type : String) : Nested false (stateFunction a q type) := by
  have harms : Nested false ((a.edgesAt q).map edgeArm ++ [failArm]) :=
    (nested_map nested_edgeArm (a.edgesAt q)).append (.line (by decide) .nil)
  have hheader : Delimits false true s!"fn _state_{q}(t: char) -> {type} \x7b" := by
    refine delimits_of_ends 'f' '\x7b' ?_ ?_ (by decide)
    · simp [toString_text]
    · simp only [String.toList_append, List.getLast?_append]
      rfl
  refine .line (by decide : Delimits false false _) (.line hheader ?_)
  simp (disch := decide) [nested_line, nested_indented, Nested.nil, harms, opens]

theorem nested_stateFunctions : Nested false (stateFunctions a) := by
  apply nested_flatMap
  intro q
  exact nested_stateFunction a q a.stateType.name

theorem nested_check : Nested false check := by
  simp (disch := decide) [check, nested_line, nested_indented, Nested.nil, opens, toString_text,
    Nat.toDigits_of_lt_base]

theorem nested_standalone : Nested false (standalone a) := by
  have hattribute : Nested false (.line "" :: .line "#[inline(always)]" :: consume a) :=
    .line (by decide : Delimits false false _) (.line (by decide) (nested_consume a))
  have hmethods := nested_check.append hattribute
  have hfield : Nested false [.line ("state: " ++ a.stateType.name ++ ",")] := by
    cases a.stateType <;> exact .line (by decide) .nil
  rw [standalone]
  apply Nested.append _ (nested_stateFunctions a)
  simp (disch := decide) [nested_line, nested_indented, Nested.nil, opens, toString_text, hmethods,
    hfield]

theorem nested_assertion (text : Word) (result : String) :
    Nested false [assertion text result] := by
  refine nested_single 'a' ';' ?_ ?_ (by decide) (by decide)
  · simp [toString_text]
  · simp only [String.toList_append, List.getLast?_append]
    rfl

theorem nested_keywordTest (words : List Word) : Nested false (keywordTest words) := by
  have hword (w : Word) : Nested false [.line (stringLiteral w ++ ",")] := by
    refine nested_single '"' ',' ?_ ?_ (by decide) (by decide)
    · simp [stringLiteral]
    · simp
  have hwords := nested_map hword words
  simp (disch := decide) [keywordTest, nested_line, nested_indented, Nested.nil, opens, hwords]

theorem nested_startTest (words : List Word) : Nested false (startTest words) := by
  have hwords := nested_map (fun w : Word ↦
    nested_assertion (w ++ suffix) s!"Some({w.length})") words
  simpa (disch := decide) [startTest, nested_line, nested_indented, Nested.nil, opens] using hwords

theorem nested_nonKeywordTest : Nested false (nonKeywordTest a) := by
  have htexts := nested_map (fun w ↦ nested_assertion w "None") ([] :: (nonKeyword? a).toList)
  simpa (disch := decide) [nonKeywordTest, nested_line, nested_indented, Nested.nil, opens]
    using htexts

theorem nested_tests : Nested false (tests a) := by
  have hblank : Nested false [.line ""] := .line (by decide) .nil
  have huse : Nested false [.line "use super::*;", .line ""] :=
    .line (by decide : Delimits false false _) hblank
  have hbody := ((((huse.append (nested_keywordTest a.words.eraseDups)).append hblank).append
    (nested_startTest a.words.eraseDups)).append hblank).append (nested_nonKeywordTest a)
  simpa (disch := decide) [tests, nested_line, nested_indented, Nested.nil, opens] using hbody

theorem nested_steps (form : Form) : Nested false (steps a form) := by
  cases form with
  | machine => exact (nested_consume a).append (nested_stateFunctions a)
  | standalone tests =>
    cases tests with
    | false => exact nested_standalone a
    | true =>
      rw [steps, withTests]
      split
      · have hblank : Delimits false false "" := by decide
        exact (nested_standalone a).append (.line hblank (nested_tests a))
      · exact nested_standalone a

/-- Symbols and words break no line, since each character of a line is printable. -/
theorem unbroken_lines (form : Form) (width : Int) :
    ∀ line ∈ (print width 0 (steps a form)).lines.map String.toList, Text.Unbroken line := by
  have hshown : AllLines (Shown []) (steps a form) := shown_steps a form
  rw [List.forall_mem_map, lines_print (arePlain_steps a form), List.forall_mem_map]
  intro line hl
  have hline : Text.Unbroken line.2.toList := by
    intro c hc
    have hc := hshown line hl c hc
    exact isBreak_of_isPrintable (hc.resolve_right List.not_mem_nil)
  have hspace : Text.isBreak ' ' = false := by decide
  rw [toList_place, indented]
  split
  · exact Text.unbroken_nil
  · refine Text.unbroken_append.2 ⟨fun c hc ↦ ?_, hline⟩
    rwa [(List.mem_replicate.1 hc).2]

end Code

namespace Builder

open Code Layout

/-- After any history, in any form and at any width that is not negative, the lines of the code, by
breaks of any kind, are the lines that were written; as many of them open a bracket as close one;
and a line is indented by as many levels as brackets are opened above it and not closed down to it.
-/
theorem nested_after (events : List Event) (form : Form) (width : Nat) :
    let a := (after events).automaton
    let lines := Text.splitLines (render a form width).toList
    lines = (print width 0 (steps a form)).lines.map String.toList ∧
    lines.countP opens = lines.countP closes ∧
    ∀ above line below, lines = above ++ line :: below →
      (above ++ [line]).countP closes ≤ above.countP opens ∧
      (line ≠ [] →
        leading line = width * (above.countP opens - (above ++ [line]).countP closes)) := by
  intro a lines
  have hlines : lines = (print width 0 (steps a form)).lines.map String.toList := by
    rw [← Text.splitLines_flatMap (unbroken_lines a form width), List.flatMap_map, ← toList_text]
    rfl
  have hplaced : (print width 0 (steps a form)).lines = placed width (outline 0 (steps a form)) :=
    (print_of_plain width 0 (steps a form) (arePlain_steps a form)).1
  refine ⟨hlines, ?_, ?_⟩
  · rw [hlines, hplaced]
    exact (nested_steps a form).countP_eq width
  · intro above line below h
    rw [hlines, hplaced] at h
    exact (nested_steps a form).leading_eq width h

end Builder

end Recognizer
