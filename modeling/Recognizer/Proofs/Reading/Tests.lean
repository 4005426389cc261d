import Recognizer.Code.Tests
import Recognizer.Proofs.Reading.Literal
import Recognizer.Proofs.Reading.Reads
/-!
The tests of an automaton read back: the assertions that they make.
-/

namespace Recognizer.Code

open Reader

theorem tokens_keyword (w : Word) :
    tokensIn (stringLiteral w ++ ",") = .text w :: tokensIn "," := by
  rw [tokensIn, String.toList_append, tokens_append (run_stringLiteral w)]
  rfl

theorem reads_keyword (w : Word) :
    Reads keyword (tokensIn (stringLiteral w ++ ",")) ⟨w, some w.length⟩ := by
  intro rest
  rw [tokens_keyword]
  simp only [keyword, List.cons_append, run_text_bind, run_expect_bind, run_pure_eq]

theorem tokens_assertion (w : Word) (result : String) : tokensOf [assertion w result] =
    tokensIn "assert_eq!(match_keyword(" ++ .text w ::
      (tokensIn ".chars())," ++ tokens (result.toList ++ ");".toList)) := by
  have htext : s!"assert_eq!(match_keyword({stringLiteral w}.chars()), {result});".toList =
      "assert_eq!(match_keyword(".toList ++ ((stringLiteral w).toList ++
        (".chars()), ".toList ++ (result.toList ++ ");".toList))) := by
    rw [String.toList_append, String.toList_append, String.toList_append, String.toList_append]
    simp only [List.append_assoc]
    rfl
  have hstart : Scan.between.run "assert_eq!(match_keyword(".toList =
      (.between, tokensIn "assert_eq!(match_keyword(") := by rfl
  have hchars : Scan.between.run ".chars()), ".toList = (.between, tokensIn ".chars()),") := by rfl
  rw [assertion, tokensOf_line, tokensIn, htext, tokens_append hstart,
    tokens_append (run_stringLiteral w), tokens_append hchars, tokensOf_nil, List.append_nil]
  rfl

theorem tokens_none : tokens ("None".toList ++ ");".toList) =
    [.name ['N', 'o', 'n', 'e']] ++ tokensIn ");" := by
  rfl

theorem tokens_some (n : Nat) : tokens (s!"Some({n})".toList ++ ");".toList) =
    (.name ['S', 'o', 'm', 'e'] :: (tokensIn "(" ++ .number n :: tokensIn ")")) ++
      tokensIn ");" := by
  have htext : s!"Some({n})".toList ++ ");".toList =
      "Some(".toList ++ ((toString n).toList ++ "));".toList) := by
    rw [String.toList_append, String.toList_append]
    simp only [List.append_assoc]
    rfl
  have hsome : Scan.between.run "Some(".toList =
      (.between, .name ['S', 'o', 'm', 'e'] :: tokensIn "(") := by rfl
  have hend : tokens "));".toList = tokensIn ")" ++ tokensIn ");" := by rfl
  rw [htext, tokens_append hsome, tokens_number n rfl, hend]
  simp

theorem reads_none : Reads expected [.name ['N', 'o', 'n', 'e']] none := by
  intro rest
  rw [expected, List.singleton_append, run_name_bind, if_pos rfl, run_pure_eq]

theorem reads_some (n : Nat) : Reads expected
    (.name ['S', 'o', 'm', 'e'] :: (tokensIn "(" ++ .number n :: tokensIn ")")) (some n) := by
  intro rest
  rw [expected, List.cons_append, run_name_bind, if_neg (by decide), if_pos rfl, List.append_assoc,
    run_expect_bind, List.cons_append, run_number_bind, run_expect_bind, run_pure_eq]

theorem reads_assertion {w : Word} {result : String} {ts : List Token} {n : Option Nat}
    (hresult : tokens (result.toList ++ ");".toList) = ts ++ tokensIn ");")
    (hts : Reads expected ts n) :
    Reads Reader.assertion (tokensOf [assertion w result]) ⟨w, n⟩ := by
  intro rest
  rw [tokens_assertion, hresult, Reader.assertion, List.append_assoc, run_expect_bind,
    List.cons_append, run_text_bind, List.append_assoc, run_expect_bind, List.append_assoc,
    hts.run_bind, run_expect_bind, run_pure_eq]

/-- What the tests of an automaton assert. -/
def assertionsOf (a : Blueprint) : List Assertion :=
  let words := a.words.eraseDups
  words.map (fun w ↦ ⟨w, some w.length⟩) ++ words.map (fun w ↦ ⟨w ++ suffix, some w.length⟩) ++
    (([] :: (nonKeyword? a).toList).map fun w ↦ ⟨w, none⟩)

theorem tokens_assertion_ne_nil (w : Word) (result : String) :
    tokensOf [assertion w result] ≠ [] := by
  simp [tokens_assertion]

theorem rejects_keyword : Rejects keyword (tokensIn "];") := by
  have hclose : tokensIn "];" = [.mark [']'], .mark [';']] := by decide
  rw [hclose]
  exact Rejects.bind (fun _ ↦ rfl) _

theorem rejects_assertion : Rejects Reader.assertion (tokensIn "\x7d") :=
  Rejects.bind (rejects_expect 0 (by decide)) _

theorem reads_tests (a : Blueprint) : Reads Reader.tests (tokensOf (tests a)) (assertionsOf a) := by
  intro rest
  have hkeywords (us : List Token) := run_many (fun w (_ : w ∈ a.words.eraseDups) ↦ reads_keyword w)
    (fun w _ ↦ by simp [tokens_keyword]) (rejects_keyword us)
  have hstarts (us : List Token) := run_many
    (fun w (_ : w ∈ a.words.eraseDups) ↦
      reads_assertion (w := w ++ suffix) (tokens_some w.length) (reads_some w.length))
    (fun w _ ↦ tokens_assertion_ne_nil _ _) (rejects_assertion us)
  have hothers (us : List Token) := run_many
    (fun w (_ : w ∈ [] :: (nonKeyword? a).toList) ↦ reads_assertion (w := w) tokens_none reads_none)
    (fun w _ ↦ tokens_assertion_ne_nil _ _) (rejects_assertion us)
  have hwrite : nonKeywordTest a = [.line "#[test]", .line "fn test_non_keywords() \x7b",
    .indented (([] :: (nonKeyword? a).toList).map fun w ↦ assertion w "None"), .line "\x7d"] := rfl
  simp only [tests, keywordTest, startTest, hwrite, tokensOf_line, tokensOf_indented,
    tokensOf_append, tokensOf_nil, tokensOf_map, tokensIn_empty_append, List.append_assoc,
    List.append_nil, Reader.tests, run_expect_bind, run_bind_of_some (hkeywords _),
    run_bind_of_some (hstarts _), run_bind_of_some (hothers _), run_pure_eq, assertionsOf]

end Recognizer.Code
