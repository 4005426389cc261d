import Recognizer.Proofs.Escaping
import Recognizer.Proofs.History
import Recognizer.Proofs.Indentation
import Recognizer.Proofs.Reading.Standalone
/-!
The parts of the code that are printed on their own. Main statements: every line of them is
printable, but for what is given as a type; printed deeper they are the same text, indented, and
come back to the depth that they found.
-/

namespace Recognizer

namespace Code

open Layout

/-- Printable, but for the characters of a given text. -/
def Shown (given : List Char) (text : String) : Prop :=
  ∀ c ∈ text.toList, Text.isPrintable c ∨ c ∈ given

section Shown

variable {given : List Char} {s t : String}

theorem shown_self (s : String) : Shown s.toList s := fun _ hc ↦ .inr hc

@[simp] theorem shown_append : Shown given (s ++ t) ↔ Shown given s ∧ Shown given t := by
  rw [Shown, String.toList_append, List.forall_mem_append]
  rfl

theorem shown_of_ascii (h : s.toList.all fun c ↦ 0x20 ≤ c.toNat ∧ c.toNat < 0x7f) :
    Shown given s := by
  intro c hc
  have hbounds := of_decide_eq_true (List.all_eq_true.1 h c hc)
  exact .inl (Text.isPrintable_of_ascii hbounds.1 hbounds.2)

/-- A text inserted into another one is itself. -/
@[simp] theorem shown_text : Shown given (toString s) ↔ Shown given s := .rfl

@[simp] theorem shown_nat (n : Nat) : Shown given n.repr := by
  have hzero : '0'.toNat = 0x30 := rfl
  have hnine : '9'.toNat = 0x39 := rfl
  intro c hc
  rw [Nat.toList_repr] at hc
  have hbounds := Char.isDigit_iff_toNat.1 (isDigit_of_mem_number hc)
  exact .inl (Text.isPrintable_of_ascii (by omega) (by omega))

@[simp] theorem shown_int (n : Int) : Shown given n.repr := by
  cases n with
  | ofNat n => exact shown_nat n
  | negSucc n => exact shown_append.2 ⟨shown_of_ascii (by decide), shown_nat (n + 1)⟩

theorem shown_quoted {quote : Char} (hq : quote = '\'' ∨ quote = '"') (s : List Char) :
    Shown given (.ofList (quote :: escape [quote] s ++ [quote])) := by
  have hquote : Text.isPrintable quote := by
    rcases hq with rfl | rfl <;> decide
  intro c hc
  rw [String.toList_ofList, List.cons_append, List.mem_cons, List.mem_append,
    List.mem_singleton] at hc
  rcases hc with rfl | hc | rfl
  · exact .inl hquote
  · exact .inl (isPrintable_of_mem_escape hq hc)
  · exact .inl hquote

@[simp] theorem shown_charLiteral (s : List Char) : Shown given (charLiteral s) :=
  shown_quoted (.inl rfl) s

@[simp] theorem shown_stringLiteral (s : List Char) : Shown given (stringLiteral s) :=
  shown_quoted (.inr rfl) s

@[simp] theorem shown_type (type : StateType) : Shown given type.name := by
  cases type <;> exact shown_of_ascii (by decide)

end Shown

section Lines

-- texts that are the same for every automaton are checked character by character, by `decide`

variable {given : List Char} (a : Blueprint)

theorem shown_dispatchArm (q : State) : AllLines (Shown given) [dispatchArm q] := by
  rw [dispatchArm]
  split
  · simp (disch := decide) [shown_of_ascii]
  · simp (disch := decide) [shown_of_ascii]

theorem shown_consume : AllLines (Shown given) (consume a) := by
  have harms : AllLines (Shown given) (a.states.map dispatchArm) :=
    allLines_map shown_dispatchArm a.states
  simp (disch := decide) [consume, shown_of_ascii, harms]

theorem shown_edgeArm (edge : Char × State) : AllLines (Shown given) [edgeArm edge] := by
  simp (disch := decide) [edgeArm, shown_of_ascii]

theorem shown_stateFunction (q : Int) {type : String} (h : Shown given type) :
    AllLines (Shown given) (stateFunction a q type) := by
  have harms : AllLines (Shown given) ((a.edgesAt q).map edgeArm) :=
    allLines_map shown_edgeArm (a.edgesAt q)
  simp (disch := decide) [stateFunction, failArm, shown_of_ascii, harms, h]

theorem shown_stateFunctions : AllLines (Shown given) (stateFunctions a) := by
  apply allLines_flatMap
  intro q
  exact shown_stateFunction a q (shown_type a.stateType)

theorem shown_check : AllLines (Shown given) check := by
  simp (disch := decide) [check, shown_of_ascii]

theorem shown_standalone : AllLines (Shown given) (standalone a) := by
  simp (disch := decide) [standalone, shown_of_ascii, shown_check, shown_consume,
    shown_stateFunctions]

theorem shown_assertion (text : Word) {result : String} (h : Shown given result) :
    AllLines (Shown given) [assertion text result] := by
  simp (disch := decide) [assertion, shown_of_ascii, h]

theorem shown_keywordTest (words : List Word) : AllLines (Shown given) (keywordTest words) := by
  have hline (w : Word) : AllLines (Shown given) [.line (stringLiteral w ++ ",")] := by
    simp (disch := decide) [shown_of_ascii]
  have hlines := allLines_map hline words
  simp (disch := decide) [keywordTest, shown_of_ascii, hlines]

theorem shown_startTest (words : List Word) : AllLines (Shown given) (startTest words) := by
  have hline (w : Word) :
      AllLines (Shown given) [assertion (w ++ suffix) s!"Some({w.length})"] := by
    apply shown_assertion
    simp (disch := decide) [shown_of_ascii]
  have hlines := allLines_map hline words
  simpa (disch := decide) [startTest, shown_of_ascii] using hlines

theorem shown_nonKeywordTest : AllLines (Shown given) (nonKeywordTest a) := by
  have hline (w : Word) : AllLines (Shown given) [assertion w "None"] :=
    shown_assertion w (shown_of_ascii (by decide))
  have hlines := allLines_map hline ([] :: (nonKeyword? a).toList)
  simpa (disch := decide) [nonKeywordTest, shown_of_ascii] using hlines

theorem shown_tests : AllLines (Shown given) (tests a) := by
  simp (disch := decide) [tests, shown_of_ascii, shown_keywordTest, shown_startTest,
    shown_nonKeywordTest]

theorem shown_steps (form : Form) : AllLines (Shown given) (steps a form) := by
  cases form with
  | machine => exact allLines_append.2 ⟨shown_consume a, shown_stateFunctions a⟩
  | standalone tests =>
    cases tests with
    | false => exact shown_standalone a
    | true =>
      simp only [steps, withTests]
      split
      · simp (disch := decide) [shown_of_ascii, shown_standalone, shown_tests]
      · exact shown_standalone a

end Lines

/-- What is printed on its own. -/
inductive Part
  | form (form : Form)
  | consume
  | check
  | tests
  /-- Any number may be given as a state, and any text as a type. -/
  | state (q : Int) (type : String)

namespace Part

def steps (a : Automaton) : Part → List Step
  | form f => Code.steps a f
  | consume => Code.consume a
  | check => Code.check
  | tests => Code.tests a
  | state q type => stateFunction a q type

/-- What a part shows just as it is given. -/
def given : Part → String
  | state _ type => type
  | _ => ""

variable (a : Automaton) (part : Part)

theorem arePlain_part : arePlain (part.steps a) := by
  cases part with
  | form f => exact arePlain_steps a f
  | consume => exact arePlain_consume a
  | check => exact arePlain_check
  | tests => exact arePlain_tests a
  | state q type => exact arePlain_stateFunction a q type

theorem shown_part : AllLines (Shown part.given.toList) (part.steps a) := by
  cases part with
  | form f => exact shown_steps a f
  | consume => exact shown_consume a
  | check => exact shown_check
  | tests => exact shown_tests a
  | state q type => exact shown_stateFunction a q (shown_self type)

theorem unbroken_part (h : '\n' ∉ part.given.toList) :
    AllLines (fun text ↦ '\n' ∉ text.toList) (part.steps a) := by
  have hfeed : ¬ Text.isPrintable '\n' := by decide
  refine (shown_part a part).mono fun text htext hm ↦ ?_
  exact (htext '\n' hm).elim hfeed h

/-- Whatever the automaton, each part comes back to the depth that it found, and its lines are those
of the outermost depth, each placed deeper. Without a line feed in what is given as a type, so is
each line of the text; in any case nothing but leading spaces depends on the width and the depth. -/
theorem print_part (a : Automaton) (part : Part) (width : Int) (depth : Nat) :
    let deep := print width depth (part.steps a)
    let flat := print width 0 (part.steps a)
    deep.depth = depth ∧ deep.aborted = false ∧
    deep.lines = flat.lines.map (place width depth) ∧
    ('\n' ∉ part.given.toList →
      deep.text.toList = mapLines (indented (depth * width).toNat) flat.text.toList) ∧
    ∀ (width' : Int) (depth' : Nat),
      mapLines unindented deep.text.toList =
        mapLines unindented (print width' depth' (part.steps a)).text.toList := by
  intro deep flat
  have hplain := arePlain_part a part
  obtain ⟨-, hdepth, haborted⟩ := print_of_plain width depth (part.steps a) hplain
  refine ⟨hdepth, haborted, lines_print_eq_map hplain width depth, ?_, ?_⟩
  · intro h
    exact text_print hplain (unbroken_part a part h) width depth
  · intro width' depth'
    exact (mapLines_unindented_print hplain width depth).trans
      (mapLines_unindented_print hplain width' depth').symm

theorem print_state_deeper :
    '\n' ∉ "u16".toList ∧
    (print 2 1 ((state 0 "u16").steps .empty)).text.toList = mapLines (indented 2)
      ("#[inline(always)]\nfn _state_0(t: char) -> u16 \x7b\n  match t \x7b\n    _ => 2,\n" ++
        "  \x7d\n\x7d\n").toList := by
  have hfeed : '\n' ∉ "u16".toList := by decide
  obtain ⟨-, -, -, htext, -⟩ := print_part .empty (state 0 "u16") 2 1
  exact ⟨hfeed, htext hfeed⟩

/-- What stands behind a line feed is not indented. -/
theorem print_broken_type :
    (print 4 1 ((state 0 "u8\nu16").steps .empty)).text.toList ≠
      mapLines (indented 4) (print 4 0 ((state 0 "u8\nu16").steps .empty)).text.toList := by
  decide +kernel

end Part

end Code

end Recognizer
