import Recognizer.Proofs.Outline
import Recognizer.Proofs.Reading.Token
/-!
The tokens of printed steps are those of their lines in order, whatever the indentation.
-/

namespace Recognizer.Code

open Layout

variable {steps more : List Step} {width : Int} {depth : Nat}

theorem tokens_line (line more : List Char) :
    tokens (line ++ '\n' :: more) = tokens line ++ tokens more := by
  have h := tokens_append (t := more) (Scan.run_line line)
  simpa using h

theorem tokens_join (lines : List String) :
    tokens (String.join (lines.map (· ++ "\n"))).toList = lines.flatMap tokensIn := by
  induction lines with
  | nil => rfl
  | cons line lines ih =>
    have hfeed : "\n".toList = ['\n'] := rfl
    rw [List.map_cons, String.join_cons, String.toList_append, String.toList_append, hfeed,
      List.append_assoc, List.singleton_append, tokens_line, ih, List.flatMap_cons, tokensIn]

theorem tokensIn_place (width : Int) (depth : Nat) (text : String) :
    tokensIn (place width depth text) = tokensIn text := by
  rw [place]
  split
  · rename_i h
    rw [h]
  · rw [tokensIn, String.toList_append, indent, String.toList_ofList, tokens_blanks, tokensIn]

def tokensOf (steps : List Step) : List Token :=
  (outline 0 steps).flatMap fun line ↦ tokensIn line.2

theorem tokensOf_outline (depth : Nat) (steps : List Step) :
    (outline depth steps).flatMap (fun line ↦ tokensIn line.2) = tokensOf steps := by
  induction depth with
  | zero => rfl
  | succ depth ih => rw [outline_succ, List.flatMap_map, ← ih]

theorem tokensIn_print (h : arePlain steps) :
    tokensIn (print width depth steps).text = tokensOf steps := by
  rw [tokensIn, Printed.text, tokens_join, (print_of_plain width depth steps h).1, placed,
    List.flatMap_map]
  simp only [tokensIn_place]
  exact tokensOf_outline depth steps

@[simp] theorem tokensOf_nil : tokensOf [] = [] := rfl

@[simp] theorem tokensOf_line (text : String) (steps : List Step) :
    tokensOf (.line text :: steps) = tokensIn text ++ tokensOf steps := (rfl)

@[simp] theorem tokensOf_indented (body steps : List Step) :
    tokensOf (.indented body :: steps) = tokensOf body ++ tokensOf steps := by
  rw [tokensOf, outline, List.flatMap_append, Step.outline, tokensOf_outline]
  rfl

@[simp] theorem tokensOf_append (steps more : List Step) :
    tokensOf (steps ++ more) = tokensOf steps ++ tokensOf more := by
  simp only [tokensOf, outline_eq_flatMap, List.flatMap_append]

theorem tokensOf_flatMap {α : Type} (xs : List α) (f : α → List Step) :
    tokensOf (xs.flatMap f) = xs.flatMap fun x ↦ tokensOf (f x) := by
  induction xs with
  | nil => rfl
  | cons x xs ih => rw [List.flatMap_cons, tokensOf_append, ih, List.flatMap_cons]

theorem tokensOf_map {α : Type} (xs : List α) (f : α → Step) :
    tokensOf (xs.map f) = xs.flatMap fun x ↦ tokensOf [f x] := by
  rw [List.map_eq_flatMap, tokensOf_flatMap]

end Recognizer.Code
