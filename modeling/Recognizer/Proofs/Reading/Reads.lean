import Recognizer.Proofs.Reading.Reader
/-!
What readers do on tokens that are known up to some point. Main statement: a list is read to its end
wherever its reader rejects what comes next.
-/

namespace Recognizer.Code.Reader

variable {α β : Type} {p : Reader α} {f : α → Reader β} {ts us rest : List Token} {x : α} {y : β}

/-- The reader takes just these tokens, whatever follows. -/
def Reads (p : Reader α) (ts : List Token) (x : α) : Prop :=
  ∀ rest, p.run (ts ++ rest) = some (x, rest)

/-- The reader fails on these tokens, whatever follows. -/
def Rejects (p : Reader α) (ts : List Token) : Prop := ∀ rest, p.run (ts ++ rest) = none

theorem run_bind_of_some (h : p.run ts = some (x, rest)) (f : α → Reader β) :
    (p >>= f).run ts = (f x).run rest := by
  rw [StateT.run_bind, h]
  rfl

theorem Reads.run_bind (h : Reads p ts x) (f : α → Reader β) (rest : List Token) :
    (p >>= f).run (ts ++ rest) = (f x).run rest := run_bind_of_some (h rest) f

theorem Reads.run_end (h : Reads p ts x) : p.run ts = some (x, []) := by
  have hend := h []
  rwa [List.append_nil] at hend

theorem Rejects.run_end (h : Rejects p ts) : p.run ts = none := by
  have hend := h []
  rwa [List.append_nil] at hend

theorem reads_expect (code : String) : Reads (expect code) (tokensIn code) () := by
  intro rest
  simp [StateT.run, expect]

@[simp] theorem run_expect_bind (code : String) (f : Unit → Reader β) (rest : List Token) :
    (expect code >>= f).run (tokensIn code ++ rest) = (f ()).run rest :=
  (reads_expect code).run_bind f rest

@[simp] theorem run_name_bind (s : List Char) (f : List Char → Reader β) (rest : List Token) :
    (name >>= f).run (.name s :: rest) = (f s).run rest := run_bind_of_some rfl f

@[simp] theorem run_number_bind (n : Nat) (f : Nat → Reader β) (rest : List Token) :
    (number >>= f).run (.number n :: rest) = (f n).run rest := run_bind_of_some rfl f

@[simp] theorem run_character_bind (c : Char) (f : Char → Reader β) (rest : List Token) :
    (character >>= f).run (.character c :: rest) = (f c).run rest := run_bind_of_some rfl f

@[simp] theorem run_text_bind (s : List Char) (f : List Char → Reader β) (rest : List Token) :
    (text >>= f).run (.text s :: rest) = (f s).run rest := run_bind_of_some rfl f

@[simp] theorem run_pure_eq (x : α) (rest : List Token) :
    (pure x : Reader α).run rest = some (x, rest) := rfl

theorem run_expect_eq_none {code : String} (h : ¬ tokensIn code <+: ts) :
    (expect code).run ts = none := by
  simp [StateT.run, expect, h]

theorem run_bind_eq_none (h : p.run ts = none) (f : α → Reader β) : (p >>= f).run ts = none := by
  rw [StateT.run_bind, h]
  rfl

theorem Rejects.bind (h : Rejects p ts) (f : α → Reader β) : Rejects (p >>= f) ts :=
  fun rest ↦ run_bind_eq_none (h rest) f

/-- The code is not read where one of its tokens differs. -/
theorem rejects_expect {code : String} (n : Nat) (h : n < (tokensIn code).length ∧ n < ts.length ∧
    (tokensIn code)[n]? ≠ ts[n]?) : Rejects (expect code) ts := by
  intro rest
  obtain ⟨hcode, hts, hne⟩ := h
  apply run_expect_eq_none
  intro hp
  obtain ⟨us, hus⟩ := hp
  have hleft : (tokensIn code ++ us)[n]? = (tokensIn code)[n]? := List.getElem?_append_left hcode
  have hright : (ts ++ rest)[n]? = ts[n]? := List.getElem?_append_left hts
  rw [hus, hright] at hleft
  exact hne hleft.symm

theorem run_orElse_left {q : Reader α} (h : p.run ts = some (x, rest)) :
    (p <|> q).run ts = some (x, rest) := by
  have hor : (p <|> q).run ts = (p.run ts <|> q.run ts) := rfl
  rw [hor, h]
  rfl

theorem run_orElse_right {q : Reader α} (h : p.run ts = none) : (p <|> q).run ts = q.run ts := by
  have hor : (p <|> q).run ts = (p.run ts <|> q.run ts) := rfl
  rw [hor, h]
  rfl

theorem read?_print {steps : List Step} (hplain : Layout.arePlain steps)
    (h : p.run (tokensOf steps) = some (x, [])) (width : Int) (depth : Nat) :
    p.read? (Layout.print width depth steps).text = some x := by
  rw [read?, tokensIn_print hplain, h]

theorem many_of_none (h : p.run ts = none) : (many p).run ts = some ([], ts) := by
  rw [StateT.run, many, repeated, h]

theorem many_of_some (h : p.run ts = some (x, rest)) (hlt : rest.length < ts.length) :
    (many p).run ts = ((many p).run rest).map fun y ↦ (x :: y.1, y.2) := by
  rw [StateT.run, many, repeated, h]
  simp [hlt, StateT.run]

/-- A reader that fails after the last element reads the list to its end. -/
theorem run_many {γ : Type} {xs : List γ} {write : γ → List Token} {meaning : γ → α}
    (h : ∀ x ∈ xs, Reads p (write x) (meaning x)) (hne : ∀ x ∈ xs, write x ≠ [])
    (hrest : p.run rest = none) :
    (many p).run (xs.flatMap write ++ rest) = some (xs.map meaning, rest) := by
  induction xs with
  -- only because it fails on the rest does the reader stop where the list ends
  | nil => exact many_of_none hrest
  | cons x xs ih =>
    have hi := ih (fun y hy ↦ h y (by simp [hy])) (fun y hy ↦ hne y (by simp [hy]))
    have hx := h x (by simp) (xs.flatMap write ++ rest)
    have hlt := List.length_pos_iff.2 (hne x (by simp))
    rw [List.flatMap_cons, List.append_assoc, many_of_some hx (by simp; omega), hi]
    rfl

end Recognizer.Code.Reader
