import Recognizer.Proofs.Breaks
import Recognizer.WordList.File
/-!
Word lists under every convention for line ends. Main statement: a text has the same lines after its
breaks have been unified, so a word list in a file is parsed as its text is, and complained about in
the same place.
-/

namespace Recognizer

namespace Text

/-- The text once it has been translated: line feeds stand for carriage returns, and each pair of
the two is one line feed. -/
inductive Unified : List Char → List Char → Prop
  | last {line : List Char} : '\r' ∉ line → Unified line line
  | pair {line rest unified : List Char} : '\r' ∉ line → Unified rest unified →
      Unified (line ++ '\r' :: '\n' :: rest) (line ++ '\n' :: unified)
  | lone {line rest unified : List Char} : '\r' ∉ line → rest.head? ≠ some '\n' →
      Unified rest unified → Unified (line ++ '\r' :: rest) (line ++ '\n' :: unified)

variable {line s t : List Char} {c : Char}

theorem Unified.cons (h : Unified s t) (hc : c ≠ '\r') : Unified (c :: s) (c :: t) := by
  have hline {line : List Char} (hl : '\r' ∉ line) : '\r' ∉ c :: line := by simp [hc.symm, hl]
  cases h with
  | last hl => exact .last (hline hl)
  | pair hl hr => exact .pair (hline hl) hr
  | lone hl hn hr => exact .lone (hline hl) hn hr

theorem unifyBreaks_append (h : '\r' ∉ line) (s : List Char) :
    unifyBreaks (line ++ s) = line ++ unifyBreaks s := by
  induction line with
  | nil => rfl
  | cons c line ih =>
    obtain ⟨hc, hline⟩ : c ≠ '\r' ∧ '\r' ∉ line := by simpa [eq_comm] using h
    rw [List.cons_append, unifyBreaks, ih hline, List.cons_append]
    · exact fun _ hr _ ↦ hc hr
    · exact hc

theorem unifyBreaks_lone (h : s.head? ≠ some '\n') :
    unifyBreaks ('\r' :: s) = '\n' :: unifyBreaks s := by
  rw [unifyBreaks]
  rintro t rfl
  exact h rfl

/-- The translation of a text is the text with its breaks unified, and there is no other. -/
theorem unified_iff : Unified s t ↔ t = unifyBreaks s := by
  constructor
  · intro h
    induction h with
    | @last line hl => simpa [unifyBreaks] using (unifyBreaks_append hl []).symm
    | pair hl _ ih => rw [unifyBreaks_append hl, ih, unifyBreaks]
    | lone hl hn _ ih => rw [unifyBreaks_append hl, ih, unifyBreaks_lone hn]
  · rintro rfl
    fun_induction unifyBreaks s with
    | case1 => exact .last List.not_mem_nil
    | case2 s ih => exact .pair List.not_mem_nil ih
    | case3 s hn ih =>
      refine .lone List.not_mem_nil ?_ ih
      intro h
      obtain ⟨t, rfl⟩ := List.head?_eq_some_iff.1 h
      exact hn t rfl
    | case4 c s _ hc ih => exact ih.cons hc

/-- A break taken for another one leaves the lines as they are. -/
theorem splitLines_unifyBreaks (s : List Char) : splitLines (unifyBreaks s) = splitLines s := by
  fun_induction unifyBreaks s with
  | case1 => rfl
  | case2 s ih => rw [splitLines_feed, splitLines_pair, ih]
  | case3 s hn ih =>
    rcases splitLines_single (c := '\r') rfl s with hs | ⟨t, -, rfl⟩
    · rw [splitLines_feed, hs, ih]
    · exact absurd rfl (hn t)
  | case4 c s _ hc ih =>
    by_cases hb : isBreak c
    · -- a break that is no carriage return takes nothing along
      have hsingle (s : List Char) : splitLines (c :: s) = [] :: splitLines s :=
        (splitLines_single hb s).resolve_right fun ⟨_, hr, _⟩ ↦ hc hr
      rw [hsingle, hsingle, ih]
    · rw [splitLines_cons (by simpa using hb), splitLines_cons (by simpa using hb), ih]

end Text

namespace WordList

open Text

/-- What a text comes to: its words, or what is said of its first fault. -/
def answer (file : Option String) (text : List Char) : Except String (List Word) :=
  (parse text).mapError (Fault.message file)

theorem parse_unifyBreaks (text : List Char) : parse (unifyBreaks text) = parse text := by
  rw [parse, parse, splitLines_unifyBreaks]

theorem ofContent_of_text (path : String) (text : String) :
    ofContent path (.ok text.toUTF8) = (parse text.toList).mapError (.line path) := by
  have htext : String.fromUTF8? text.toByteArray = some text := dif_pos text.isValidUTF8
  rw [ofContent, ← parse_unifyBreaks]
  simp [htext]

theorem mapError_message (path : String) (text : List Char) :
    ((parse text).mapError (.line path)).mapError ListFault.message = answer (some path) text := by
  rw [answer]
  cases parse text <;> rfl

/-- A text comes to the same words, or to a fault in the same place, before and after it has been
translated. So a file that holds the text comes to what the text does under the name of the file. -/
theorem wordList_of_text (text : String) :
    (∀ unified, Unified text.toList unified ↔ unified = unifyBreaks text.toList) ∧
    parse (unifyBreaks text.toList) = parse text.toList ∧
    (∀ file, answer file (unifyBreaks text.toList) = answer file text.toList) ∧
    ∀ (t : FileTree) (path : String), t.read path = .ok text.toUTF8 →
      (t.wordList path).mapError ListFault.message = answer (some path) text.toList := by
  refine ⟨fun unified ↦ unified_iff, parse_unifyBreaks _, fun file ↦ ?_, fun t path hread ↦ ?_⟩
  · rw [answer, parse_unifyBreaks, answer]
  · rw [FileTree.wordList, hread, ofContent_of_text, mapError_message]

/-- Two words in the sixth line of a file that breaks its lines in every way. -/
theorem wordList_of_text_mixed :
    let text := "if\r\n#\r\r\n\n\rin int\r"
    let t : FileTree := .ofNodes [("w.txt", .file text.toUTF8)]
    t.read "w.txt" = .ok text.toUTF8 ∧
      (t.wordList "w.txt").mapError ListFault.message = .error
        ("w.txt: line 6, column 4: Expected one keyword per line.\n" ++ " >>> in int\n" ++
          "        ^^^ near here") := by
  intro text t
  have hread : t.read "w.txt" = .ok text.toUTF8 := by
    simp only [t, text]
    rfl
  have hanswer : answer (some "w.txt") text.toList = .error
      ("w.txt: line 6, column 4: Expected one keyword per line.\n" ++ " >>> in int\n" ++
        "        ^^^ near here") := by decide +kernel
  obtain ⟨-, -, -, hfile⟩ := wordList_of_text text
  exact ⟨hread, (hfile t "w.txt" hread).trans hanswer⟩

end WordList

end Recognizer
