import Recognizer.Proofs.Breaks
import Recognizer.WordList.Basic
/-!
The grammar of word lists. A line holds a word between blanks, a comment or nothing, and any break
ends it. Main statement: a text is parsed as a list of words just if it lists them by this grammar,
and the words, one a line, list themselves.
-/

namespace Recognizer.WordList

open Text

def Blank (s : List Char) : Prop := ∀ c ∈ s, isBlank c

structure Solid (s : List Char) : Prop where
  ne_nil : s ≠ []
  not_blank : ∀ c ∈ s, isBlank c = false

/-- Where this comes behind a run of characters, the run is at its end. -/
def Apart (s : List Char) : Prop := ∀ c ∈ s.head?, isBlank c

structure IsWord (w : Word) : Prop extends Solid w where
  not_comment : w.head? ≠ some '#'

/-- A line, and the word in it. -/
inductive Entry : List Char → Option Word → Prop
  | blank {s : List Char} : Blank s → Entry s none
  | comment {s rest : List Char} : Blank s → Entry (s ++ '#' :: rest) none
  | word {s t : List Char} {w : Word} : Blank s → IsWord w → Blank t → Entry (s ++ w ++ t) (some w)

/-- A text whose lines hold these words in turn; the last line need not be ended. -/
inductive Listing : List Char → List Word → Prop
  | last {line : List Char} {found : Option Word} : Unbroken line → Entry line found →
      Listing line found.toList
  | line {line b rest : List Char} {found : Option Word} {words : List Word} : Unbroken line →
      Entry line found → LineEnd b → Listing rest words →
      Listing (line ++ b ++ rest) (found.toList ++ words)

/-- The parts of a line with two runs of characters, the first of which begins no comment: what
stands before the second run, that run, and what stands behind it. -/
structure Crowded (before second rest : List Char) : Prop where
  before : ∃ lead first gap, before = lead ++ first ++ gap ∧ Blank lead ∧ IsWord first ∧
    Blank gap ∧ gap ≠ []
  second : Solid second
  rest : Apart rest

variable {lead line rest s second text : List Char} {row : Nat} {found : Option Word} {w : Word}
  {words : List Word}

section Runs

theorem Blank.apart (h : Blank s) : Apart s := fun c hc ↦ h c (List.mem_of_mem_head? hc)

theorem blank_nil : Blank [] := List.forall_mem_nil _

theorem runsFrom_of_blank (column : Nat) (h : Blank s) : runsFrom column s = [] :=
  runsFrom_of_dropWhile_nil (List.dropWhile_eq_nil_iff.2 h)

/-- The first run of a line, where it ends. -/
theorem runsFrom_append (column : Nat) (hlead : Blank lead) (htext : Solid text)
    (hrest : Apart rest) : runsFrom column (lead ++ text ++ rest) =
      ⟨column + lead.length, text⟩ :: runsFrom (column + lead.length + text.length) rest := by
  obtain ⟨c, text, rfl⟩ := List.exists_cons_of_ne_nil htext.ne_nil
  obtain ⟨hc, ht⟩ := List.forall_mem_cons.1 htext.not_blank
  have hsolid : ∀ d ∈ text, (!isBlank d) = true := fun d hd ↦ by simp [ht d hd]
  have hdrop : (lead ++ (c :: text) ++ rest).dropWhile isBlank = c :: (text ++ rest) := by
    rw [List.append_assoc, List.dropWhile_append_of_pos hlead]
    simp [hc]
  have htake : (lead ++ (c :: text) ++ rest).takeWhile isBlank = lead := by
    rw [List.append_assoc, List.takeWhile_append_of_pos hlead]
    simp [hc]
  have hend : rest.takeWhile (!isBlank ·) = [] ∧ rest.dropWhile (!isBlank ·) = rest := by
    cases rest with
    | nil => exact ⟨rfl, rfl⟩
    | cons d rest =>
      have hd : isBlank d := hrest d rfl
      simp [hd]
  rw [runsFrom_of_dropWhile_cons hdrop, htake, List.takeWhile_append_of_pos hsolid,
    List.dropWhile_append_of_pos hsolid, hend.1, hend.2, List.append_nil]

/-- A line is blank, or has a first run. -/
theorem exists_run (s : List Char) : Blank s ∨ ∃ lead text rest, s = lead ++ text ++ rest ∧
    Blank lead ∧ Solid text ∧ Apart rest := by
  have hs := List.takeWhile_append_dropWhile (p := isBlank) (l := s)
  have hlead : Blank (s.takeWhile isBlank) := fun c hc ↦ List.mem_takeWhile_imp hc
  cases hd : s.dropWhile isBlank with
  | nil => exact .inl (List.dropWhile_eq_nil_iff.1 hd)
  | cons c t =>
    right
    have hc : isBlank c = false := by
      have hn := List.head?_dropWhile_not isBlank s
      rw [hd] at hn
      simpa using hn
    refine ⟨s.takeWhile isBlank, c :: t.takeWhile (!isBlank ·), t.dropWhile (!isBlank ·), ?_,
      hlead, ⟨List.cons_ne_nil _ _, ?_⟩, ?_⟩
    · rw [List.append_assoc, List.cons_append, List.takeWhile_append_dropWhile, ← hd, hs]
    · rw [List.forall_mem_cons]
      exact ⟨hc, fun d hd ↦ by simpa using List.mem_takeWhile_imp hd⟩
    · intro d hd
      have hn := List.head?_dropWhile_not (!isBlank ·) t
      rw [hd] at hn
      simpa using hn

end Runs

section Line

theorem parseLine_of_entry (h : Entry line found) (row : Nat) :
    parseLine row line = .ok found := by
  cases h with
  | blank hs => simp [parseLine, runs, runsFrom_of_blank 0 hs]
  | @comment s rest hs =>
    have hdrop : (s ++ '#' :: rest).dropWhile isBlank = '#' :: rest := by
      rw [List.dropWhile_append_of_pos hs]
      rfl
    simp [parseLine, runs, runsFrom_of_dropWhile_cons hdrop]
  | word hs hw ht =>
    rw [parseLine, runs, runsFrom_append 0 hs hw.toSolid ht.apart, runsFrom_of_blank _ ht]
    exact if_neg hw.not_comment

theorem parseLine_of_crowded (h : Crowded s second rest) (row : Nat) :
    parseLine row (s ++ second ++ rest) =
      .error ⟨row, s ++ second ++ rest, ⟨s.length, second⟩⟩ := by
  obtain ⟨lead, first, gap, rfl, hlead, hfirst, hgap, hne⟩ := h.before
  have hafter : Apart (gap ++ second ++ rest) := by
    obtain ⟨c, gap, rfl⟩ := List.exists_cons_of_ne_nil hne
    intro d hd
    obtain rfl : c = d := by simpa using hd
    exact hgap c (by simp)
  have hruns : runs (lead ++ first ++ gap ++ second ++ rest) =
      ⟨lead.length, first⟩ :: ⟨(lead ++ first ++ gap).length, second⟩ ::
        runsFrom ((lead ++ first ++ gap).length + second.length) rest := by
    have hone := runsFrom_append 0 hlead hfirst.toSolid hafter
    have htwo := runsFrom_append (lead.length + first.length) hgap h.second h.rest
    simp only [List.append_assoc, Nat.zero_add, List.length_append] at hone htwo ⊢
    rw [runs, hone, htwo]
    simp only [Nat.add_assoc]
  rw [parseLine, hruns]
  exact if_neg hfirst.not_comment

/-- A line that is no entry is crowded. -/
theorem entry_or_crowded (line : List Char) : (∃ found, Entry line found) ∨
    ∃ before second rest, line = before ++ second ++ rest ∧ Crowded before second rest := by
  rcases exists_run line with h | ⟨lead, first, s, rfl, hlead, hfirst, hs⟩
  · exact .inl ⟨none, .blank h⟩
  by_cases hc : first.head? = some '#'
  · obtain ⟨t, rfl⟩ := List.head?_eq_some_iff.1 hc
    rw [List.append_assoc]
    exact .inl ⟨none, .comment hlead⟩
  have hword : IsWord first := ⟨hfirst, hc⟩
  rcases exists_run s with h | ⟨gap, second, rest, rfl, hgap, hsecond, hrest⟩
  · exact .inl ⟨some first, .word hlead hword h⟩
  · have hne : gap ≠ [] := by
      rintro rfl
      obtain ⟨c, second, rfl⟩ := List.exists_cons_of_ne_nil hsecond.ne_nil
      have hblank := hs c rfl
      simp [hsecond.not_blank c (by simp)] at hblank
    exact .inr ⟨lead ++ first ++ gap, second, rest, by simp,
      ⟨⟨lead, first, gap, rfl, hlead, hword, hgap, hne⟩, hsecond, hrest⟩⟩

theorem Entry.unique {other : Option Word} (h : Entry line found) (h' : Entry line other) :
    found = other := by
  have hline := parseLine_of_entry h 0
  rw [parseLine_of_entry h', Except.ok.injEq] at hline
  exact hline.symm

theorem entry_nil : Entry [] none := .blank blank_nil

theorem parseLine_eq_ok_iff : parseLine row line = .ok found ↔ Entry line found := by
  refine ⟨fun h ↦ ?_, fun h ↦ parseLine_of_entry h row⟩
  rcases entry_or_crowded line with ⟨other, he⟩ | ⟨s, second, rest, rfl, hc⟩
  · rw [parseLine_of_entry he, Except.ok.injEq] at h
    exact h ▸ he
  · rw [parseLine_of_crowded hc] at h
    cases h

end Line

section Lines

variable {lines : List (List Char)}

theorem parseLines_cons_eq_ok_iff : parseLines row (line :: lines) = .ok words ↔
    ∃ found rest, Entry line found ∧ parseLines (row + 1) lines = .ok rest ∧
      words = found.toList ++ rest := by
  rw [parseLines]
  cases hl : parseLine row line with
  | error f =>
    refine ⟨nofun, ?_⟩
    rintro ⟨found, rest, he, -, -⟩
    rw [parseLine_of_entry he] at hl
    cases hl
  | ok found =>
    have hfound := parseLine_eq_ok_iff.1 hl
    constructor
    · intro h
      cases hr : parseLines (row + 1) lines with
      | error f => simp [hr, Except.map] at h
      | ok rest => exact ⟨found, rest, hfound, rfl, by simpa [hr, Except.map, eq_comm] using h⟩
    · rintro ⟨other, rest, he, hr, rfl⟩
      rw [parseLine_of_entry he row, Except.ok.injEq] at hl
      simp [hr, hl, Except.map]

theorem parseLines_nil_cons_eq_ok_iff :
    parseLines row ([] :: lines) = .ok words ↔ parseLines (row + 1) lines = .ok words := by
  rw [parseLines_cons_eq_ok_iff]
  constructor
  · rintro ⟨found, rest, he, hr, rfl⟩
    obtain rfl := he.unique entry_nil
    exact hr
  · intro h
    exact ⟨none, words, entry_nil, h, rfl⟩

theorem parseLines_of_listing (h : Listing text words) (row : Nat) :
    parseLines row (splitLines text) = .ok words := by
  induction h generalizing row with
  | last hl he =>
    rw [splitLines_of_unbroken hl]
    split
    · next hnil =>
      subst hnil
      obtain rfl := he.unique entry_nil
      rfl
    · exact parseLines_cons_eq_ok_iff.2 ⟨_, [], he, rfl, by simp⟩
  | @line line b rest found words hl he hb _ ih =>
    rcases splitLines_lineEnd hl hb rest with hs | ⟨t, rfl, hs⟩
    · rw [hs]
      exact parseLines_cons_eq_ok_iff.2 ⟨_, _, he, ih _, rfl⟩
    · -- an empty line is lost, and with it no word
      have ht := ih row
      rw [splitLines_feed, parseLines_nil_cons_eq_ok_iff] at ht
      rw [hs]
      exact parseLines_cons_eq_ok_iff.2 ⟨_, _, he, ht, rfl⟩

theorem listing_of_parseLines (h : parseLines row (splitLines text) = .ok words) :
    Listing text words := by
  induction text using lines_induction generalizing row words with
  | last s hs =>
    rw [splitLines_of_unbroken hs] at h
    split at h
    · next hnil =>
      obtain rfl : [] = words := Except.ok.inj h
      rw [hnil]
      exact .last unbroken_nil entry_nil
    · obtain ⟨found, rest, he, hr, rfl⟩ := parseLines_cons_eq_ok_iff.1 h
      obtain rfl : [] = rest := Except.ok.inj hr
      rw [List.append_nil]
      exact .last hs he
  | line l b rest hl hb hs ih =>
    rw [hs] at h
    obtain ⟨found, more, he, hr, rfl⟩ := parseLines_cons_eq_ok_iff.1 h
    exact .line hl he hb (ih hr)

end Lines

namespace Listing

theorem isWord (h : Listing text words) : ∀ w ∈ words, IsWord w := by
  have hentry {line : List Char} {found : Option Word} (he : Entry line found) :
      ∀ w ∈ found.toList, IsWord w := by
    cases he with
    | blank => simp
    | comment => simp
    | word _ hw _ => simpa using hw
  induction h with
  | last _ he => exact hentry he
  | line _ he _ _ ih =>
    rw [List.forall_mem_append]
    exact ⟨hentry he, ih⟩

theorem unbroken_of_isWord (h : IsWord w) : Unbroken w := by
  intro c hc
  by_contra hb
  have hblank := isBlank_of_isBreak (by simpa using hb)
  simp [h.not_blank c hc] at hblank

theorem entry_of_isWord (h : IsWord w) : Entry w (some w) := by
  simpa using Entry.word blank_nil h blank_nil

/-- Words one a line list themselves. -/
theorem intercalate (h : ∀ w ∈ words, IsWord w) : Listing (['\n'].intercalate words) words := by
  induction words with
  | nil => exact .last unbroken_nil entry_nil
  | cons w words ih =>
    obtain ⟨hw, hwords⟩ := List.forall_mem_cons.1 h
    have hentry := entry_of_isWord hw
    have hline := unbroken_of_isWord hw
    cases words with
    | nil => simpa using Listing.last hline hentry
    | cons v words =>
      rw [List.intercalate_cons_cons]
      exact .line hline hentry (.single rfl) (ih hwords)

end Listing

/-- A text is parsed as a list of words if it lists them, and only then. What has been parsed are
words, and these, joined by line feeds, are parsed as themselves. -/
theorem parse_eq_ok_iff_listing (text : List Char) (words : List Word) :
    (parse text = .ok words ↔ Listing text words) ∧
      (parse text = .ok words → (∀ w ∈ words, IsWord w) ∧
        parse (['\n'].intercalate words) = .ok words) := by
  have hiff (text : List Char) : parse text = .ok words ↔ Listing text words :=
    ⟨listing_of_parseLines, fun h ↦ parseLines_of_listing h 1⟩
  refine ⟨hiff text, fun h ↦ ?_⟩
  have hwords := ((hiff text).1 h).isWord
  exact ⟨hwords, (hiff _).2 (.intercalate hwords)⟩

example : parse "# Reserved\n\nand\r\n\x1f class\t\u2028\r\nelse".toList =
    .ok ["and".toList, "class".toList, "else".toList] := by cbv

end Recognizer.WordList
