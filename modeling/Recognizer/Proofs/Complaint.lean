import Recognizer.Proofs.Listing
/-!
Complaints about word lists. Main statement: there is one just if some line has a second run of
characters behind a word, and then it names the first such line and the column of that run, and
shows the line with carets below the run and nowhere else.
-/

namespace Recognizer

namespace Text

theorem trimEnd_append_cons (s : List Char) {c : Char} (hc : isBlank c = false) (t : List Char) :
    trimEnd (s ++ c :: t) = s ++ c :: trimEnd t := by
  induction s with
  | nil =>
    rw [List.nil_append, trimEnd, hc]
    cases trimEnd t <;> rfl
  | cons d s ih =>
    rw [List.cons_append, trimEnd, ih]
    cases s <;> rfl

theorem trimEnd_prefix_self (s : List Char) : trimEnd s <+: s := by
  induction s with
  | nil => exact List.prefix_refl []
  | cons c s ih =>
    rw [trimEnd]
    cases ht : trimEnd s with
    | nil =>
      by_cases hc : isBlank c
      · simp [hc]
      · simp [hc]
    | cons d t => exact (List.prefix_cons_inj c).2 (ht ▸ ih)

end Text

namespace WordList

open Text

def IsCrowded (line : List Char) : Prop :=
  ∃ before second rest, line = before ++ second ++ rest ∧ Crowded before second rest

variable {before line lead rest s second text : List Char} {lines : List (List Char)}
  {i n row : Nat} {found : Option Word} {words : List Word} {f : Fault}

section Fault

theorem Entry.not_isCrowded (h : Entry line found) : ¬ IsCrowded line := by
  intro hc
  obtain ⟨before, second, rest, rfl, hc⟩ := hc
  have hline := parseLine_of_entry h 0
  rw [parseLine_of_crowded hc] at hline
  cases hline

theorem not_isCrowded_of_parseLines (h : parseLines row lines = .ok words) :
    ∀ line ∈ lines, ¬ IsCrowded line := by
  induction lines generalizing row words with
  | nil => simp
  | cons line lines ih =>
    obtain ⟨found, rest, he, hr, -⟩ := parseLines_cons_eq_ok_iff.1 h
    exact List.forall_mem_cons.2 ⟨he.not_isCrowded, ih hr⟩

/-- The fault is in the first crowded line, and the second run there is what is too much. -/
theorem exists_of_parseLines_eq_error (h : parseLines row lines = .error f) :
    ∃ earlier before second rest later, lines = earlier ++ (before ++ second ++ rest) :: later ∧
      (∀ line ∈ earlier, ¬ IsCrowded line) ∧ Crowded before second rest ∧
      f = ⟨row + earlier.length, before ++ second ++ rest, ⟨before.length, second⟩⟩ := by
  induction lines generalizing row with
  | nil => cases h
  | cons line lines ih =>
    rw [parseLines] at h
    rcases entry_or_crowded line with ⟨found, he⟩ | ⟨before, second, rest, rfl, hc⟩
    · rw [parseLine_of_entry he] at h
      cases hl : parseLines (row + 1) lines with
      | ok words => simp [hl, Except.map] at h
      | error g =>
        obtain rfl : g = f := by simpa [hl, Except.map] using h
        obtain ⟨earlier, before, second, rest, later, rfl, hearlier, hc, rfl⟩ := ih hl
        refine ⟨line :: earlier, before, second, rest, later, rfl, ?_, hc, ?_⟩
        · exact List.forall_mem_cons.2 ⟨he.not_isCrowded, hearlier⟩
        · rw [List.length_cons, Nat.add_assoc, Nat.add_comm 1]
    · rw [parseLine_of_crowded hc] at h
      exact ⟨[], before, second, rest, lines, rfl, by simp, hc, (Except.error.inj h).symm⟩

end Fault

section Picture

theorem trimEnd_crowded (h : Solid second) (before rest : List Char) :
    trimEnd (before ++ second ++ rest) = before ++ second ++ trimEnd rest := by
  rcases List.eq_nil_or_concat second with rfl | ⟨s, c, rfl⟩
  · exact absurd rfl h.ne_nil
  · have hc := h.not_blank c (by simp)
    simpa using trimEnd_append_cons (before ++ s) hc rest

theorem carets_crowded (h : Solid second) (before rest : List Char) :
    carets (before ++ second ++ rest) before.length second.length =
      List.replicate second.length '^' := by
  have hpos := List.length_pos_iff.2 h.ne_nil
  rw [carets]
  congr 1
  simp only [List.length_append]
  omega

/-- What stands below a line: blanks and tabs, then carets, then the caption. -/
def underline (before second caption : List Char) : List Char :=
  blanked before ++ List.replicate second.length '^' ++ ' ' :: caption

theorem illustrate_crowded (h : Solid second) (before rest lead caption : List Char) :
    illustrate (before ++ second ++ rest) before.length second.length lead caption =
      .ofList (lead ++ before ++ second ++ trimEnd rest ++
        '\n' :: underline (lead ++ before) second caption) := by
  have htake : (before ++ second ++ rest).take before.length = before := by
    rw [List.append_assoc, List.take_left]
  rw [illustrate, trimEnd_crowded h, carets_crowded h, before_natCast, htake, underline]
  simp only [List.append_assoc, List.cons_append]

theorem message_crowded (h : Solid second) (before rest : List Char) (row : Nat)
    (file : Option String) :
    Fault.message file ⟨row, before ++ second ++ rest, ⟨before.length, second⟩⟩ =
      s!"{place file} line {row}, column {before.length + 1}: " ++
        s!"Expected one keyword per line.\n" ++
        String.ofList (" >>> ".toList ++ before ++ second ++ trimEnd rest) ++ "\n" ++
        String.ofList (underline (" >>> ".toList ++ before) second "near here".toList) := by
  have hrow : toString (row : Int) = toString row := rfl
  have hcolumn : toString ((before.length : Int) + 1) = toString (before.length + 1) := rfl
  have hfeed (s t : List Char) :
      String.ofList (s ++ '\n' :: t) = String.ofList s ++ "\n" ++ String.ofList t := by
    simp [← String.toList_inj]
  rw [Fault.message, complaint, illustrate_crowded h, hfeed]
  simp only [hrow, hcolumn, String.append_assoc]
  rfl

theorem getElem?_underline_eq_caret_iff {caption : List Char} (hc : '^' ∉ caption) :
    (underline before second caption)[i]? = some '^' ↔
      before.length ≤ i ∧ i < before.length + second.length := by
  have hb : '^' ∉ blanked before := by
    rw [blanked, List.mem_map]
    rintro ⟨c, -, h⟩
    split at h
    · next ht => exact absurd (ht.symm.trans h) (by decide)
    · exact absurd h (by decide)
  have hend : '^' ∉ ' ' :: caption := by simp [hc]
  have hlength := length_blanked before
  rw [underline, List.getElem?_append, List.getElem?_append, List.length_append, hlength,
    List.length_replicate]
  split
  · next hlt =>
    split
    · next hi =>
      refine ⟨fun h ↦ absurd (List.mem_of_getElem? h) hb, fun h ↦ ?_⟩
      omega
    · next hi =>
      rw [List.getElem?_replicate_of_lt (by omega)]
      simp only [true_iff]
      omega
  · next hge =>
    refine ⟨fun h ↦ absurd (List.mem_of_getElem? h) hend, fun h ↦ ?_⟩
    omega

theorem getElem?_underline_of_lt (hi : i < before.length) (second caption : List Char) :
    (underline before second caption)[i]? =
      some (if before[i]? = some '\t' then '\t' else ' ') := by
  rw [underline, List.append_assoc, List.getElem?_append_left (by simpa using hi), blanked,
    List.getElem?_map, List.getElem?_eq_getElem hi, Option.map_some]
  by_cases ht : before[i] = '\t'
  · simp [ht]
  · simp [ht]

theorem unbroken_underline {caption : List Char} (hc : Unbroken caption)
    (before second : List Char) : Unbroken (underline before second caption) := by
  rw [underline, unbroken_append, unbroken_append, unbroken_cons]
  refine ⟨⟨?_, ?_⟩, rfl, hc⟩
  · intro c hc
    obtain ⟨d, -, rfl⟩ := List.mem_map.1 hc
    split
    · next ht =>
      rw [ht]
      rfl
    · rfl
  · intro c hc
    rw [List.eq_of_mem_replicate hc]
    rfl

end Picture

/-- A text is not parsed just if one of its lines is crowded. The message then names the first such
line and the column of its second run, both counted from one; two lines follow, of which the upper
shows the crowded line, and the lower has carets just below the second run, and before them a tab
where there is one above and a space elsewhere. -/
theorem message_of_crowded (text : List Char) (file : Option String) :
    ((∃ f, parse text = .error f) ↔ ∃ line ∈ splitLines text, IsCrowded line) ∧
    ∀ f, parse text = .error f → ∃ earlier before second rest later,
      splitLines text = earlier ++ (before ++ second ++ rest) :: later ∧
      (∀ line ∈ earlier, ¬ IsCrowded line) ∧ Crowded before second rest ∧
      ∃ above below : List Char,
        f.message file = s!"{place file} line {earlier.length + 1}, column {before.length + 1}: " ++
          s!"Expected one keyword per line.\n{String.ofList above}\n{String.ofList below}" ∧
        Unbroken above ∧ Unbroken below ∧
        let lead := " >>> ".toList ++ before
        above = lead ++ second ++ trimEnd rest ∧
        (∀ i, below[i]? = some '^' ↔ lead.length ≤ i ∧ i < lead.length + second.length) ∧
        ∀ i < lead.length, below[i]? = some (if above[i]? = some '\t' then '\t' else ' ') := by
  refine ⟨⟨?_, ?_⟩, ?_⟩
  · intro h
    obtain ⟨f, h⟩ := h
    obtain ⟨earlier, before, second, rest, later, hlines, -, hc, -⟩ :=
      exists_of_parseLines_eq_error h
    exact ⟨before ++ second ++ rest, by simp [hlines], before, second, rest, rfl, hc⟩
  · intro h
    obtain ⟨line, hline, hc⟩ := h
    cases hp : parse text with
    | ok words => exact absurd hc (not_isCrowded_of_parseLines hp line hline)
    | error f => exact ⟨f, rfl⟩
  · intro f h
    obtain ⟨earlier, before, second, rest, later, hlines, hearlier, hc, rfl⟩ :=
      exists_of_parseLines_eq_error h
    have hline : Unbroken (before ++ second ++ rest) :=
      unbroken_of_mem_splitLines (s := text) (by simp [hlines])
    rw [unbroken_append, unbroken_append] at hline
    have hlead : Unbroken " >>> ".toList := by decide
    refine ⟨earlier, before, second, rest, later, hlines, hearlier, hc, _,
      underline (" >>> ".toList ++ before) second "near here".toList, ?_, ?_, ?_, rfl,
      fun i ↦ getElem?_underline_eq_caret_iff (by decide), fun i hi ↦ ?_⟩
    · rw [message_crowded hc.second, Nat.add_comm 1]
      simp only [String.append_assoc]
      rfl
    · simp only [unbroken_append]
      refine ⟨⟨⟨hlead, hline.1.1⟩, hline.1.2⟩, fun c hc ↦ hline.2 c ?_⟩
      exact (trimEnd_prefix_self rest).subset hc
    · exact unbroken_underline (by decide) _ _
    · rw [getElem?_underline_of_lt hi, List.append_assoc, List.getElem?_append_left hi]

example : (parse "#\nif\tthen ".toList).mapError (·.message none) = .error
    ("At line 2, column 4: Expected one keyword per line.\n" ++ " >>> if\tthen\n" ++
      "       \t^^^^ near here") := by cbv

end WordList

end Recognizer
