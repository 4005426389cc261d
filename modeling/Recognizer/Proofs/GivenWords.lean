import Recognizer.Proofs.Rendering
import Recognizer.Proofs.Runs
import Recognizer.Proofs.Strictness
/-!
Which words a run recognizes. It takes those of the arguments and then those of the word list, and
the keywords of Lox where this makes no word at all, be it that none was asked for or that the word
list has only blank lines and comments. Main statement: the code that comes out is the one for these
words, and differs from the one for the words given just where a word list named holds none of them.
-/

namespace Recognizer

theorem Value.eq_of_word_text {s : String} {w : Word} (h : (text s).word = .ok w) :
    w = s.toList := by
  rw [word] at h
  split at h
  · cases h
  · exact (Except.ok.inj h).symm

namespace WordList

/-- Nothing stands in the line, or what does begins with the sign of a comment. -/
def isWordless (line : List Char) : Bool := (line.dropWhile Text.isBlank).head?.all (· = '#')

theorem parseLine_of_isWordless (row : Nat) {line : List Char} (h : isWordless line) :
    parseLine row line = .ok none := by
  cases hd : line.dropWhile Text.isBlank with
  | nil => simp [parseLine, runs, runsFrom_of_dropWhile_nil hd]
  | cons c rest =>
    obtain rfl : c = '#' := by simpa [isWordless, hd] using h
    simp [parseLine, runs, runsFrom_of_dropWhile_cons hd]

theorem parseLines_of_isWordless (row : Nat) {lines : List (List Char)}
    (h : ∀ line ∈ lines, isWordless line) : parseLines row lines = .ok [] := by
  induction lines generalizing row with
  | nil => rfl
  | cons line lines ih =>
    rw [parseLines, parseLine_of_isWordless row (h line (by simp))]
    simp [ih (row + 1) fun l hl ↦ h l (by simp [hl]), Except.map]

end WordList

namespace Builder

open Automaton

variable {b built : Builder} {texts : List String} {notes : Notes}

theorem automaton_of_texts (h : b.offerAll (texts.map .text) = (notes, .ok built)) :
    built.automaton = (texts.map String.toList).foldl Automaton.insert b.automaton := by
  induction texts generalizing b notes with
  | nil =>
    obtain ⟨-, hb⟩ := Prod.mk.inj h
    exact congrArg automaton (Except.ok.inj hb).symm
  | cons s texts ih =>
    cases ho : b.offer (.text s) with
    | error refusal => simp [offerAll, ho] at h
    | ok taken =>
      obtain ⟨c, more⟩ := taken
      obtain ⟨w, hword, rfl, -⟩ := offer_eq_ok ho
      rw [List.map_cons, offerAll_of_ok ho] at h
      obtain ⟨-, hb⟩ := Prod.mk.inj h
      rw [ih (Prod.ext rfl hb), take, Value.eq_of_word_text hword, List.map_cons, List.foldl_cons]

/-- The keywords of Lox are taken by a strict builder too, for they have no conflict. -/
theorem offerAll_lox (strict verbose : Bool) :
    (({ strict, verbose } : Builder).offerAll (Lox.keywords.map .text)).2 =
      .ok { automaton := Lox.automaton, strict, verbose } := by
  have hv : (Lox.keywords.map Value.text).map Value.word =
      (Lox.keywords.map String.toList).map .ok := rfl
  cases strict with
  | false => exact offerAll_of_lenient rfl hv
  | true =>
    rcases offerAll_strict .empty verbose hv with ⟨hok, -⟩ | ⟨w, depth, more, -, hmore, -⟩
    · exact hok
    · exact absurd (Lox.conflicts_automaton.symm.trans hmore) nofun

end Builder

theorem Lox.render_ne_empty (form : Code.Form) (width : Int) :
    Code.render automaton form width ≠ Code.render Automaton.empty form width := by
  intro h
  have hsize : automaton.size ≠ Automaton.empty.size := by decide +kernel
  exact hsize (Code.alike_of_render_eq h).size

namespace Command

open Automaton WordList

variable {o : Options} {t : FileTree} {text : String}

/-- The words of the arguments, and behind them those of the word list. -/
def Options.given (o : Options) (listed : List Word) : List Word :=
  o.words.map String.toList ++ listed

theorem Options.given_eq_nil {listed : List Word} :
    o.given listed = [] ↔ o.words ++ listed.map String.ofList = [] := by
  simp [given]

/-- What a run renders is the automaton of the words given, or else of the keywords of Lox. -/
theorem Options.Renders.eq_render (h : o.Renders t text) : ∃ listed,
    (if o.wordList = "" then listed = [] else t.wordList o.wordList = .ok listed) ∧
    text = Code.render (ofWords (if o.given listed = [] then Lox.keywords.map String.toList
      else o.given listed)) o.form 4 := by
  obtain ⟨listed, notes, built, hl, hb, rfl⟩ := h
  refine ⟨listed, hl, ?_⟩
  have hused : (if o.words ++ listed.map String.ofList = [] then Lox.keywords
      else o.words ++ listed.map String.ofList).map String.toList =
      if o.given listed = [] then Lox.keywords.map String.toList else o.given listed := by
    simp only [given_eq_nil]
    split
    · rfl
    · simp [given, Function.comp_def]
  rw [Builder.automaton_of_texts hb, hused, form, ofWords]

theorem Options.run_of_list (ho : o.output = "") (hl : o.wordList ≠ "") {listed : List Word}
    (h : t.wordList o.wordList = .ok listed) : o.run t = (o.planWords listed).carryOut t := by
  have hlist : WordList.ofContent o.wordList (t.read o.wordList) = .ok listed := h
  rw [Options.run, Options.plan, if_neg (by simp [ho]), if_neg hl, hlist]

/-- A word list of blank lines and comments makes a recognizer for Lox if no word is an argument. -/
theorem lox_of_wordless (hw : o.words = []) (ho : o.output = "") (hl : o.wordList ≠ "")
    (hread : t.read o.wordList = .ok text.toUTF8)
    (hlines : ∀ line ∈ Text.splitLines (Text.unifyBreaks text.toList), isWordless line) :
    t.wordList o.wordList = .ok [] ∧ (o.run t).status = .ok 0 ∧
      (o.run t).stdout = Code.render Lox.automaton o.form 4 := by
  have hlist : t.wordList o.wordList = .ok [] := by
    have htext : String.fromUTF8? text.toByteArray = some text := dif_pos text.isValidUTF8
    rw [FileTree.wordList, hread]
    simp [ofContent, htext, parse, parseLines_of_isWordless 1 hlines, Except.mapError]
  have hoffers : o.offers [] = Lox.keywords.map .text := by
    simp [Options.offers, hw]
  have hbuilt := Builder.offerAll_lox o.strict o.verbose
  refine ⟨hlist, ?_⟩
  rw [Options.run_of_list ho hl hlist, Options.planWords, hoffers,
    ← Prod.eta (o.builder.offerAll _), Options.builder, hbuilt]
  simp [Options.planFor, ho, Plan.carryOut]

/-- A run with a word list that holds a comment only. -/
theorem comment_makes_lox :
    let o : Options := { wordList := "w.txt" }
    let t : FileTree := .ofNodes [("w.txt", .file "# none yet\n\n".toUTF8)]
    request ["-w", "w.txt"] = .ok (.run o) ∧ t.wordList o.wordList = .ok [] ∧
      (o.run t).status = .ok 0 ∧ (o.run t).stdout = Code.render Lox.automaton o.form 4 ∧
      (o.run t).stdout ≠ Code.render (ofWords []) o.form 4 := by
  intro o t
  have hlines : ∀ line ∈ Text.splitLines (Text.unifyBreaks "# none yet\n\n".toList),
      isWordless line := by decide +kernel
  have hread : t.read o.wordList = .ok "# none yet\n\n".toUTF8 := by
    simp only [t, o]
    rfl
  obtain ⟨hlist, hs, hout⟩ := lox_of_wordless rfl rfl (by decide) hread hlines
  refine ⟨rfl, hlist, hs, hout, ?_⟩
  rw [hout]
  exact Lox.render_ne_empty o.form 4

/-- A run that returns zero puts out the code for the words of the arguments and then those of the
word list, or for the keywords of Lox where there are none. That is the code for the words asked
for, except if a word list is named and no word is given at all. -/
theorem words_of_run (hs : (o.run t).status = .ok 0) : ∃ listed,
    (if o.wordList = "" then listed = [] else t.wordList o.wordList = .ok listed) ∧
    let lox := Lox.keywords.map String.toList
    let given := o.words.map String.toList ++ listed
    let asked := if o.words = [] ∧ o.wordList = "" then lox else given
    let code := Code.render (ofWords (if given = [] then lox else given)) o.form 4
    (if o.output = "" then (o.run t).stdout = code
      else (o.run t).tree.read o.output = .ok code.toUTF8) ∧
    (code = Code.render (ofWords asked) o.form 4 ↔ (given = [] → o.wordList = "")) := by
  obtain ⟨text, hr, hprinted, hwrote⟩ := exists_renders hs
  obtain ⟨listed, hl, rfl⟩ := hr.eq_render
  refine ⟨listed, hl, ?_⟩
  intro lox given asked code
  refine ⟨?_, ?_⟩
  · split
    · next ho => exact hprinted ho
    · next ho =>
      obtain ⟨place, -, hread, -⟩ := hwrote ho
      exact hread
  · by_cases hg : given = []
    · have hw : o.words = [] := List.map_eq_nil_iff.1 (List.append_eq_nil_iff.1 hg).1
      by_cases hlist : o.wordList = ""
      · simp [code, asked, hg, hw, hlist]
      -- A list without words: the run falls back on Lox, the words asked for are none.
      · have hne : Code.render (ofWords lox) o.form 4 ≠ Code.render (ofWords []) o.form 4 :=
          Lox.render_ne_empty o.form 4
        simpa [code, asked, hg, hlist] using hne
    · have hasked : ¬ (o.words = [] ∧ o.wordList = "") := by
        rintro ⟨hw, hlist⟩
        rw [if_pos hlist] at hl
        exact hg (by simp [given, hw, hl])
      simp [code, asked, hg, hasked]

theorem words_of_run_int :
    let o : Options := { words := ["in", "int"] }
    let t : FileTree := ⟨[]⟩
    (o.run t).status = .ok 0 ∧
      (o.run t).stdout = Code.render (ofWords ["in".toList, "int".toList]) .machine 4 := by
  intro o t
  have hs : (o.run t).status = .ok 0 := rfl
  obtain ⟨listed, hl, hcode, -⟩ := words_of_run hs
  obtain rfl : listed = [] := hl
  exact ⟨hs, hcode⟩

end Command

end Recognizer
