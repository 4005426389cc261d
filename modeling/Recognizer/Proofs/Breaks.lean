import Mathlib.Data.List.TakeWhile
import Recognizer.Text.Blank
import Recognizer.Text.Lines
/-!
Texts cut into lines by breaks of any kind. Main statements: what lies before the first break is the
first line, and lines hold no break; an induction over the lines of a text; and lines that are put
together are found again.
-/

namespace Recognizer.Text

def Unbroken (s : List Char) : Prop := ∀ c ∈ s, isBreak c = false

instance : DecidablePred Unbroken := fun s ↦ List.decidableBAll (isBreak · = false) s

/-- What ends a line: a break alone, or a carriage return with a line feed. -/
inductive LineEnd : List Char → Prop
  | single {c : Char} : isBreak c → LineEnd [c]
  | pair : LineEnd ['\r', '\n']

variable {line s b : List Char} {lines : List (List Char)} {c : Char}

theorem isBlank_of_isBreak (h : isBreak c) : isBlank c := by
  have hall : ['\n', '\r', '\x0b', '\x0c', '\x1c', '\x1d', '\x1e', '\x85', '\u2028', '\u2029'].all
      isBlank := by decide +kernel
  exact List.all_eq_true.1 hall c (of_decide_eq_true h)

theorem unbroken_nil : Unbroken [] := List.forall_mem_nil _

theorem unbroken_cons : Unbroken (c :: s) ↔ isBreak c = false ∧ Unbroken s := List.forall_mem_cons

theorem unbroken_append : Unbroken (line ++ s) ↔ Unbroken line ∧ Unbroken s :=
  List.forall_mem_append

theorem splitLines_of_unbroken (h : Unbroken s) : splitLines s = if s = [] then [] else [s] := by
  induction s with
  | nil => rfl
  | cons c s ih =>
    obtain ⟨hc, hs⟩ := unbroken_cons.1 h
    rw [splitLines_cons hc, ih hs]
    cases s <;> simp

theorem splitLines_append (h : Unbroken line) (hs : splitLines s = [] :: lines) :
    splitLines (line ++ s) = line :: lines := by
  induction line with
  | nil => exact hs
  | cons c line ih =>
    obtain ⟨hc, hline⟩ := unbroken_cons.1 h
    rw [List.cons_append, splitLines_cons hc, ih hline]

theorem splitLines_pair (s : List Char) : splitLines ('\r' :: '\n' :: s) = [] :: splitLines s :=
  rfl

/-- A carriage return takes along a line feed behind it. -/
theorem splitLines_single (hc : isBreak c) (s : List Char) :
    splitLines (c :: s) = [] :: splitLines s ∨ ∃ t, c = '\r' ∧ s = '\n' :: t := by
  by_cases h : ∃ t, c = '\r' ∧ s = '\n' :: t
  · exact .inr h
  · left
    rw [splitLines, if_pos hc]
    intro t hr hs
    exact h ⟨t, hr, hs⟩

/-- What ends a line may take along the empty line behind it. -/
theorem splitLines_lineEnd (h : Unbroken line) (hb : LineEnd b) (rest : List Char) :
    splitLines (line ++ b ++ rest) = line :: splitLines rest ∨
      ∃ t, rest = '\n' :: t ∧ splitLines (line ++ b ++ rest) = line :: splitLines t := by
  rw [List.append_assoc]
  cases hb with
  | pair => exact .inl (splitLines_append h (splitLines_pair rest))
  | single hc =>
    rcases splitLines_single hc rest with hs | ⟨t, rfl, rfl⟩
    · exact .inl (splitLines_append h hs)
    · exact .inr ⟨t, rfl, splitLines_append h (splitLines_pair t)⟩

/-- A text holds no break, or has a line before its first one. -/
theorem exists_line (s : List Char) : Unbroken s ∨ ∃ line b rest, s = line ++ b ++ rest ∧
    Unbroken line ∧ LineEnd b ∧ splitLines s = line :: splitLines rest := by
  have hs := List.takeWhile_append_dropWhile (p := fun c ↦ !isBreak c) (l := s)
  have hline : Unbroken (s.takeWhile fun c ↦ !isBreak c) := by
    intro c hc
    simpa using List.mem_takeWhile_imp hc
  generalize s.takeWhile (fun c ↦ !isBreak c) = line at hs hline
  cases hd : s.dropWhile fun c ↦ !isBreak c with
  | nil =>
    rw [hd, List.append_nil] at hs
    exact .inl (hs ▸ hline)
  | cons c rest =>
    have hc : isBreak c := by
      have hn := List.head?_dropWhile_not (fun c ↦ !isBreak c) s
      rw [hd] at hn
      simpa using hn
    rw [hd] at hs
    subst hs
    right
    rcases splitLines_single hc rest with hs | ⟨t, rfl, rfl⟩
    · exact ⟨line, [c], rest, by simp, hline, .single hc, splitLines_append hline hs⟩
    · exact ⟨line, ['\r', '\n'], t, by simp, hline, .pair,
        splitLines_append hline (splitLines_pair t)⟩

theorem LineEnd.length_pos (hb : LineEnd b) : 0 < b.length := by
  cases hb <;> simp

/-- What holds of texts without breaks, and of a line with what follows it, holds of all texts. -/
theorem lines_induction {P : List Char → Prop} (last : ∀ s, Unbroken s → P s)
    (line : ∀ line b rest, Unbroken line → LineEnd b →
      splitLines (line ++ b ++ rest) = line :: splitLines rest → P rest → P (line ++ b ++ rest))
    (s : List Char) : P s := by
  induction hn : s.length using Nat.strongRecOn generalizing s with
  | _ n ih =>
    rcases exists_line s with h | ⟨l, b, rest, rfl, hl, hb, hs⟩
    · exact last s h
    · refine line l b rest hl hb hs (ih rest.length ?_ rest rfl)
      have hpos := hb.length_pos
      simp only [List.length_append] at hn
      omega

theorem unbroken_of_mem_splitLines (h : line ∈ splitLines s) : Unbroken line := by
  induction s using lines_induction with
  | last s hs =>
    rw [splitLines_of_unbroken hs] at h
    split at h
    · simp at h
    · rwa [List.mem_singleton.1 h]
  | line l b rest hl _ hs ih =>
    rw [hs, List.mem_cons] at h
    rcases h with rfl | h
    · exact hl
    · exact ih h

/-- Lines without breaks, each with a line feed behind it, are the lines of their text. -/
theorem splitLines_flatMap (h : ∀ line ∈ lines, Unbroken line) :
    splitLines (lines.flatMap (· ++ ['\n'])) = lines := by
  induction lines with
  | nil => rfl
  | cons line lines ih =>
    obtain ⟨hline, hlines⟩ := List.forall_mem_cons.1 h
    rw [List.flatMap_cons, List.append_assoc, List.singleton_append, splitLines_line hline,
      ih hlines]

/-- Lines that hold no line feed, each with one behind it, are the lines of their text. -/
theorem splitOn_flatMap (h : ∀ line ∈ lines, '\n' ∉ line) (rest : List Char) :
    (lines.flatMap (· ++ ['\n']) ++ rest).splitOn '\n' = lines ++ rest.splitOn '\n' := by
  induction lines with
  | nil => rfl
  | cons line lines ih =>
    obtain ⟨hline, hlines⟩ := List.forall_mem_cons.1 h
    rw [List.flatMap_cons, List.append_assoc, List.append_assoc, List.singleton_append,
      List.splitOn_append_cons_self, List.splitOn_eq_singleton hline, ih hlines,
      List.singleton_append, List.cons_append]

end Recognizer.Text
