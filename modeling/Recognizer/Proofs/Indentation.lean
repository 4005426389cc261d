import Mathlib.Data.List.Basic
import Recognizer.Proofs.Outline
/-!
Indentation of whole texts. Main statements: steps printed deeper are the same lines, each of them
placed deeper; where no line is broken, the text is that of the outermost depth, indented; and no
depth or width leaves a mark on a text without its leading spaces.
-/

namespace Recognizer.Layout

/-- A text with each of its lines changed. -/
def mapLines (f : List Char → List Char) (text : List Char) : List Char :=
  ['\n'].intercalate ((text.splitOn '\n').map f)

/-- Empty lines stay empty. -/
def indented (n : Nat) (line : List Char) : List Char :=
  if line = [] then [] else List.replicate n ' ' ++ line

def unindented (line : List Char) : List Char := line.dropWhile (· = ' ')

variable {f : List Char → List Char} {P Q : String → Prop} {steps more body : List Step}
  {text : String}

section MapLines

theorem mapLines_of_notMem {line : List Char} (h : '\n' ∉ line) : mapLines f line = f line := by
  rw [mapLines, List.splitOn_eq_singleton h, List.map_singleton, List.intercalate_singleton]

theorem mapLines_append (f : List Char → List Char) (s t : List Char) :
    mapLines f (s ++ '\n' :: t) = mapLines f s ++ '\n' :: mapLines f t := by
  have hne (s : List Char) : (s.splitOn '\n').map f ≠ [] := by
    simp [List.splitOn_ne_nil]
  rw [mapLines, List.splitOn_append_cons_self, List.map_append, mapLines, mapLines]
  generalize (s.splitOn '\n').map f = ls, hne s = hs
  induction ls with
  | nil => exact absurd rfl hs
  | cons l ls ih =>
    cases ls with
    | nil =>
      rw [List.singleton_append, List.intercalate_cons_of_ne_nil (hne t),
        List.intercalate_singleton, List.append_assoc, List.singleton_append]
    | cons l' ls =>
      rw [List.cons_append, List.cons_append, List.intercalate_cons_cons, ← List.cons_append,
        ih (List.cons_ne_nil _ _), List.intercalate_cons_cons]
      simp only [List.append_assoc]

theorem mapLines_flatMap (hf : f [] = []) (lines : List String) :
    mapLines f (lines.flatMap (·.toList ++ ['\n'])) =
      lines.flatMap fun line ↦ mapLines f line.toList ++ ['\n'] := by
  induction lines with
  | nil => exact (mapLines_of_notMem List.not_mem_nil).trans hf
  | cons line lines ih =>
    rw [List.flatMap_cons, List.append_assoc, List.singleton_append, mapLines_append, ih,
      List.flatMap_cons, List.append_assoc, List.singleton_append]

theorem mapLines_unindented_spaces (n : Nat) (s : List Char) :
    mapLines unindented (List.replicate n ' ' ++ s) = mapLines unindented s := by
  induction n with
  | zero => rfl
  | succ n ih =>
    rw [List.replicate_succ, List.cons_append, ← ih]
    generalize List.replicate n ' ' ++ s = t
    obtain ⟨line, rest, h⟩ := List.exists_cons_of_ne_nil (List.splitOn_ne_nil '\n' t)
    have hsplit : (' ' :: t).splitOn '\n' = (' ' :: line) :: rest := by
      rw [List.splitOn_cons_eq_if_modifyHead, h]
      rfl
    rw [mapLines, hsplit, mapLines, h, List.map_cons, List.map_cons]
    rfl

end MapLines

section Place

theorem toNat_add_mul (depth k : Nat) (width : Int) :
    (((depth + k : Nat) : Int) * width).toNat = (depth * width).toNat + (k * width).toNat := by
  rw [Int.natCast_add, Int.add_mul]
  by_cases hw : 0 ≤ width
  · exact Int.toNat_add (Int.mul_nonneg (by omega) hw) (Int.mul_nonneg (by omega) hw)
  · have hd := Int.mul_nonpos_of_nonneg_of_nonpos (by omega : 0 ≤ (depth : Int))
      (by omega : width ≤ 0)
    have hk := Int.mul_nonpos_of_nonneg_of_nonpos (by omega : 0 ≤ (k : Int))
      (by omega : width ≤ 0)
    omega

@[simp] theorem indented_nil (n : Nat) : indented n [] = [] := rfl

theorem indented_of_ne_nil (n : Nat) {line : List Char} (h : line ≠ []) :
    indented n line = List.replicate n ' ' ++ line := if_neg h

theorem indented_add (m n : Nat) (line : List Char) :
    indented (m + n) line = indented n (indented m line) := by
  by_cases h : line = []
  · rw [h, indented_nil, indented_nil, indented_nil]
  · have hm : List.replicate m ' ' ++ line ≠ [] := by simp [h]
    rw [indented_of_ne_nil _ h, indented_of_ne_nil _ h, indented_of_ne_nil _ hm, Nat.add_comm,
      ← List.replicate_append_replicate, List.append_assoc]

theorem notMem_indented {line : List Char} (h : '\n' ∉ line) (n : Nat) :
    '\n' ∉ indented n line := by
  by_cases hl : line = []
  · simp [hl]
  · simp [indented_of_ne_nil n hl, h]

theorem toList_place (width : Int) (depth : Nat) (text : String) :
    (place width depth text).toList = indented (depth * width).toNat text.toList := by
  by_cases h : text = ""
  · rw [h]
    rfl
  · rw [place, if_neg h, String.toList_append, indent, String.toList_ofList,
      indented_of_ne_nil _ (by simpa using h)]

/-- A line placed deeper is a placed line that is indented. -/
theorem place_add (width : Int) (depth k : Nat) (text : String) :
    place width (depth + k) text = place width k (place width depth text) := by
  rw [← String.toList_inj, toList_place, toList_place, toList_place, toNat_add_mul, indented_add]

theorem mapLines_unindented_place (width : Int) (depth : Nat) (text : String) :
    mapLines unindented (place width depth text).toList = mapLines unindented text.toList := by
  by_cases h : text = ""
  · rw [h, place_empty]
  · rw [toList_place, indented_of_ne_nil _ (by simpa using h), mapLines_unindented_spaces]

end Place

section AllLines

/-- A property of the lines as they are before they are placed. -/
def AllLines (P : String → Prop) (steps : List Step) : Prop := ∀ line ∈ outline 0 steps, P line.2

theorem outline_eq_map (depth : Nat) (steps : List Step) :
    outline depth steps = (outline 0 steps).map fun line ↦ (line.1 + depth, line.2) := by
  induction depth with
  | zero => exact (List.map_id _).symm
  | succ depth ih => rw [outline_succ, ih, List.map_map]; rfl

@[simp] theorem allLines_nil : AllLines P [] := List.forall_mem_nil _

@[simp] theorem allLines_line :
    AllLines P (.line text :: steps) ↔ P text ∧ AllLines P steps := List.forall_mem_cons

@[simp] theorem allLines_indented :
    AllLines P (.indented body :: steps) ↔ AllLines P body ∧ AllLines P steps := by
  rw [AllLines, outline, List.forall_mem_append, Step.outline, outline_eq_map,
    List.forall_mem_map]
  rfl

@[simp] theorem allLines_append :
    AllLines P (steps ++ more) ↔ AllLines P steps ∧ AllLines P more := by
  rw [AllLines, outline_eq_flatMap, List.flatMap_append, List.forall_mem_append,
    ← outline_eq_flatMap, ← outline_eq_flatMap]
  rfl

theorem allLines_flatMap {α : Type} {f : α → List Step} (h : ∀ x, AllLines P (f x))
    (xs : List α) : AllLines P (xs.flatMap f) := by
  induction xs with
  | nil => exact allLines_nil
  | cons x xs ih =>
    rw [List.flatMap_cons, allLines_append]
    exact ⟨h x, ih⟩

theorem allLines_map {α : Type} {f : α → Step} (h : ∀ x, AllLines P [f x]) (xs : List α) :
    AllLines P (xs.map f) := by
  rw [List.map_eq_flatMap]
  exact allLines_flatMap h xs

theorem AllLines.mono (h : AllLines P steps) (hs : ∀ text, P text → Q text) : AllLines Q steps :=
  fun line hl ↦ hs _ (h line hl)

end AllLines

section Print

theorem toList_text (p : Printed) : p.text.toList = p.lines.flatMap (·.toList ++ ['\n']) := by
  have hfeed : "\n".toList = ['\n'] := rfl
  rw [Printed.text, String.toList_join, List.flatMap_map]
  simp only [String.toList_append, hfeed]

theorem toList_text_append (h : arePlain steps) : (print width depth (steps ++ more)).text.toList =
    (print width depth steps).text.toList ++ (print width depth more).text.toList := by
  have hlines : (print width depth (steps ++ more)).lines =
      (print width depth steps).lines ++ (print width depth more).lines := by
    induction steps with
    | nil => rfl
    | cons s steps ih =>
      rw [arePlain, Bool.and_eq_true] at h
      obtain ⟨-, hdepth, haborted⟩ := step_of_plain width depth s h.1
      simp [print, haborted, hdepth, ih h.2]
  rw [toList_text, toList_text, toList_text, hlines, List.flatMap_append]

theorem toList_text_line (text : String) : (print width depth (.line text :: steps)).text.toList =
    (place width depth text).toList ++ '\n' :: (print width depth steps).text.toList := by
  rw [toList_text, toList_text, print_line, List.flatMap_cons, List.append_assoc,
    List.singleton_append]

theorem toList_text_indented : (print width depth [.indented body]).text.toList =
    (print width (depth + 1) body).text.toList := by
  rw [toList_text, toList_text]
  simp [print, step]

variable (hplain : arePlain steps)

include hplain

theorem lines_print (width : Int) (depth : Nat) :
    (print width depth steps).lines =
      (outline 0 steps).map fun line ↦ place width (line.1 + depth) line.2 := by
  rw [(print_of_plain width depth steps hplain).1, placed, outline_eq_map, List.map_map]
  rfl

theorem lines_print_eq_map (width : Int) (depth : Nat) :
    (print width depth steps).lines = (print width 0 steps).lines.map (place width depth) := by
  rw [lines_print hplain, lines_print hplain, List.map_map]
  simp only [Function.comp_def, Nat.add_zero, place_add]

/-- Lines that are not broken are the lines of the text. -/
theorem text_print (hlines : AllLines (fun text ↦ '\n' ∉ text.toList) steps) (width : Int)
    (depth : Nat) : (print width depth steps).text.toList =
      mapLines (indented (depth * width).toNat) (print width 0 steps).text.toList := by
  have hplaced : ∀ line ∈ (print width 0 steps).lines, '\n' ∉ line.toList := by
    rw [lines_print hplain, List.forall_mem_map]
    intro line hl
    rw [toList_place]
    exact notMem_indented (hlines line hl) _
  rw [toList_text, toList_text, lines_print_eq_map hplain, mapLines_flatMap rfl, List.flatMap_map]
  refine List.flatMap_congr fun line hl ↦ ?_
  rw [mapLines_of_notMem (hplaced line hl), toList_place]

/-- One level deeper, a text whose lines are not broken has each of its lines indented. -/
theorem text_print_one (hlines : AllLines (fun text ↦ '\n' ∉ text.toList) steps) (width : Int) :
    (print width 1 steps).text.toList =
      mapLines (indented width.toNat) (print width 0 steps).text.toList := by
  have hone : ((1 : Nat) : Int) * width = width := Int.one_mul width
  rw [text_print hplain hlines, hone]

theorem mapLines_unindented_print (width : Int) (depth : Nat) :
    mapLines unindented (print width depth steps).text.toList =
      (outline 0 steps).flatMap fun line ↦ mapLines unindented line.2.toList ++ ['\n'] := by
  rw [toList_text, mapLines_flatMap rfl, lines_print hplain, List.flatMap_map]
  simp only [mapLines_unindented_place]

end Print

end Recognizer.Layout
