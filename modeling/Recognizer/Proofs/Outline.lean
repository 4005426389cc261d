import Recognizer.Layout
/-!
The outline of steps that write lines and nest bodies: each line with its depth. Main statement:
such steps are printed as their outline, and come back to the depth that they found.
-/

namespace Recognizer

mutual

/-- Only lines and indented bodies. -/
def Step.isPlain : Step → Bool
  | .line _ => true
  | .indented body => Layout.arePlain body
  | _ => false

def Layout.arePlain : List Step → Bool
  | [] => true
  | s :: steps => s.isPlain && Layout.arePlain steps

end

mutual

def Step.outline (depth : Nat) : Step → List (Nat × String)
  | .line text => [(depth, text)]
  | .indented body => Layout.outline (depth + 1) body
  | _ => []

def Layout.outline (depth : Nat) : List Step → List (Nat × String)
  | [] => []
  | s :: steps => s.outline depth ++ Layout.outline depth steps

end

namespace Layout

variable {steps : List Step} {width : Int} {depth : Nat}

theorem arePlain_iff : arePlain steps ↔ ∀ s ∈ steps, s.isPlain := by
  induction steps with
  | nil => simp [arePlain]
  | cons s steps ih => simp [arePlain, ih]

@[simp] theorem arePlain_nil : arePlain [] = true := rfl

@[simp] theorem arePlain_line (text : String) (steps : List Step) :
    arePlain (.line text :: steps) = arePlain steps := rfl

@[simp] theorem arePlain_indented (body steps : List Step) :
    arePlain (.indented body :: steps) = (arePlain body && arePlain steps) := rfl

@[simp] theorem arePlain_append (steps more : List Step) :
    arePlain (steps ++ more) = (arePlain steps && arePlain more) := by
  rw [Bool.eq_iff_iff, Bool.and_eq_true, arePlain_iff, arePlain_iff, arePlain_iff,
    List.forall_mem_append]

theorem arePlain_map {α : Type} {f : α → Step} (h : ∀ x, (f x).isPlain) (xs : List α) :
    arePlain (xs.map f) := by
  rw [arePlain_iff, List.forall_mem_map]
  exact fun x _ ↦ h x

theorem arePlain_flatMap {α : Type} {f : α → List Step} (h : ∀ x, arePlain (f x)) (xs : List α) :
    arePlain (xs.flatMap f) := by
  rw [arePlain_iff, List.forall_mem_flatMap]
  exact fun x _ ↦ arePlain_iff.1 (h x)

theorem outline_eq_flatMap : outline depth steps = steps.flatMap (Step.outline depth) := by
  induction steps with
  | nil => rfl
  | cons s steps ih => rw [outline, ih, List.flatMap_cons]

def placed (width : Int) (lines : List (Nat × String)) : List String :=
  lines.map fun line ↦ place width line.1 line.2

theorem placed_append (width : Int) (lines more : List (Nat × String)) :
    placed width (lines ++ more) = placed width lines ++ placed width more := List.map_append

mutual

theorem step_of_plain (width : Int) (depth : Nat) : ∀ s : Step, s.isPlain →
    (step width depth s).lines = placed width (s.outline depth) ∧
      (step width depth s).depth = depth ∧ (step width depth s).aborted = false
  | .line text, _ => ⟨rfl, rfl, rfl⟩
  | .indented body, h => by
    obtain ⟨hlines, hdepth, -⟩ := print_of_plain width (depth + 1) body h
    refine ⟨hlines, ?_, rfl⟩
    rw [step, hdepth, Nat.add_sub_cancel]

theorem print_of_plain (width : Int) (depth : Nat) : ∀ steps : List Step, arePlain steps →
    (print width depth steps).lines = placed width (outline depth steps) ∧
      (print width depth steps).depth = depth ∧ (print width depth steps).aborted = false
  | [], _ => ⟨rfl, rfl, rfl⟩
  | s :: steps, h => by
    rw [arePlain, Bool.and_eq_true] at h
    obtain ⟨hlines, hdepth, haborted⟩ := step_of_plain width depth s h.1
    obtain ⟨hlines', hdepth', haborted'⟩ := print_of_plain width depth steps h.2
    simp [print, haborted, hdepth, hlines, hlines', hdepth', haborted', outline, placed_append]

end

mutual

theorem outline_step_succ (depth : Nat) : ∀ s : Step,
    s.outline (depth + 1) = (s.outline depth).map fun line ↦ (line.1 + 1, line.2)
  | .line _ => rfl
  | .indented body => outline_succ (depth + 1) body
  | .block => rfl
  | .blockEnd => rfl
  | .abort => rfl

theorem outline_succ (depth : Nat) : ∀ steps : List Step,
    outline (depth + 1) steps = (outline depth steps).map fun line ↦ (line.1 + 1, line.2)
  | [] => rfl
  | s :: steps => by
    rw [outline, outline, outline_step_succ depth s, outline_succ depth steps, List.map_append]

end

end Layout

end Recognizer
