import Recognizer.Code.Machine
import Recognizer.Proofs.Reading.Literal
import Recognizer.Proofs.Reading.Reads
/-!
The code of an automaton read back: the machine that it denotes, whatever the width of the
indentation.
-/

namespace Recognizer.Code

open Reader

variable {t : List Char}

def functionName (q : State) : List Char := ['_', 's', 't', 'a', 't', 'e', '_'] ++ Nat.toDigits 10 q

theorem functionName_injective {p q : State} (h : functionName p = functionName q) : p = q := by
  have hdigits := List.append_cancel_left h
  rw [← Nat.ofDigitChars_ten_toDigits (n := p), hdigits, Nat.ofDigitChars_ten_toDigits]

theorem tokens_functionName (q : State) (ht : isWordChar (t.headD ' ') = false) :
    tokens (functionName q ++ t) = .name (functionName q) :: tokens t := by
  have hall : (functionName q).all isWordChar := by
    simp only [functionName, List.all_append, Bool.and_eq_true]
    exact ⟨by decide, all_isWordChar_toDigits q⟩
  exact tokens_name rfl hall ht

def actionOf (q : State) : Action :=
  if q = State.final ∨ q = State.fail then .refuse else .call (functionName q)

theorem tokens_refuseArm {q : State} (h : q = State.final ∨ q = State.fail) :
    tokensOf [dispatchArm q] =
      .number q ::
        (tokensIn "=>" ++ .name ['r', 'e', 't', 'u', 'r', 'n'] :: tokensIn "false,") := by
  have htext : s!"{q} => return false,".toList =
      (toString q).toList ++ " => return false,".toList := String.toList_append
  have hrest : tokens " => return false,".toList =
      tokensIn "=>" ++ .name ['r', 'e', 't', 'u', 'r', 'n'] :: tokensIn "false," := by rfl
  rw [dispatchArm, if_pos h, tokensOf_line, tokensIn, htext, tokens_number q rfl, hrest,
    tokensOf_nil, List.append_nil]

theorem toList_callArm (q : State) : s!"{q} => _state_{q}(t),".toList =
    (toString q).toList ++ (" => ".toList ++ (functionName q ++ "(t),".toList)) := by
  have hmiddle : (toString " => _state_").toList =
      " => ".toList ++ ['_', 's', 't', 'a', 't', 'e', '_'] := rfl
  rw [String.toList_append, String.toList_append, String.toList_append, hmiddle,
    toList_number, functionName]
  simp only [List.append_assoc]
  rfl

theorem tokens_callArm {q : State} (h : ¬ (q = State.final ∨ q = State.fail)) :
    tokensOf [dispatchArm q] =
      .number q :: (tokensIn "=>" ++ .name (functionName q) :: tokensIn "(t),") := by
  have harrow : Scan.between.run " => ".toList = (.between, tokensIn "=>") := by rfl
  rw [dispatchArm, if_neg h, tokensOf_line, tokensIn, toList_callArm, tokens_number q rfl,
    tokens_append harrow, tokens_functionName q rfl, tokensOf_nil, List.append_nil]
  rfl

theorem reads_refuse :
    Reads action (.name ['r', 'e', 't', 'u', 'r', 'n'] :: tokensIn "false,") .refuse := by
  intro rest
  rw [action, List.cons_append, run_name_bind, if_pos rfl, run_expect_bind, run_pure_eq]

theorem reads_call (q : State) :
    Reads action (.name (functionName q) :: tokensIn "(t),") (.call (functionName q)) := by
  intro rest
  have hname : functionName q ≠ ['r', 'e', 't', 'u', 'r', 'n'] := by simp [functionName]
  rw [action, List.cons_append, run_name_bind, if_neg hname, run_expect_bind, run_pure_eq]

theorem reads_dispatchArm (q : State) :
    Reads Reader.dispatchArm (tokensOf [dispatchArm q]) (q, actionOf q) := by
  intro rest
  rw [Reader.dispatchArm, actionOf]
  by_cases h : q = State.final ∨ q = State.fail
  · rw [tokens_refuseArm h, if_pos h, List.cons_append, run_number_bind, List.append_assoc,
      run_expect_bind, reads_refuse.run_bind, run_pure_eq]
  · rw [tokens_callArm h, if_neg h, List.cons_append, run_number_bind, List.append_assoc,
      run_expect_bind, (reads_call q).run_bind, run_pure_eq]

theorem tokens_dispatchArm_ne_nil (q : State) : tokensOf [dispatchArm q] ≠ [] := by
  by_cases h : q = State.final ∨ q = State.fail
  · simp [tokens_refuseArm h]
  · simp [tokens_callArm h]

theorem reads_consume (a : Blueprint) :
    Reads Reader.consume (tokensOf (consume a)) (a.states.map fun q ↦ (q, actionOf q)) := by
  intro rest
  have hend : Rejects Reader.dispatchArm (tokensIn "_ => unreachable!(),") :=
    Rejects.bind (fun _ ↦ rfl) _
  have harms (us : List Token) := run_many (fun q (_ : q ∈ a.states) ↦ reads_dispatchArm q)
    (fun q _ ↦ tokens_dispatchArm_ne_nil q) (hend us)
  simp only [consume, tokensOf_line, tokensOf_indented, tokensOf_append, tokensOf_map, tokensOf_nil,
    List.append_assoc, List.append_nil, Reader.consume, run_expect_bind,
    run_bind_of_some (harms _), run_pure_eq]

theorem tokens_edgeArm (edge : Char × State) : tokensOf [edgeArm edge] =
    .character edge.1 :: (tokensIn "=>" ++ .number edge.2 :: tokensIn ",") := by
  have htext : s!"{charLiteral [edge.1]} => {edge.2},".toList =
      (charLiteral [edge.1]).toList ++
        (" => ".toList ++ ((toString edge.2).toList ++ ",".toList)) := by
    rw [String.toList_append, String.toList_append, String.toList_append]
    simp only [List.append_assoc]
    rfl
  have harrow : Scan.between.run " => ".toList = (.between, tokensIn "=>") := by rfl
  rw [edgeArm, tokensOf_line, tokensIn, htext, tokens_append (run_charLiteral edge.1),
    tokens_append harrow, tokens_number edge.2 rfl, tokensOf_nil, List.append_nil]
  rfl

theorem reads_arm (edge : Char × State) : Reads arm (tokensOf [edgeArm edge]) edge := by
  intro rest
  rw [tokens_edgeArm, arm, List.cons_append, run_character_bind, List.append_assoc, run_expect_bind,
    List.cons_append, run_number_bind, run_expect_bind, run_pure_eq]

theorem tokens_failArm : tokensOf [failArm] =
    tokensIn "_ =>" ++ .number State.fail :: tokensIn "," := by
  rfl

theorem tokens_type (type : StateType) (ht : isWordChar (t.headD ' ') = false) :
    tokens (type.name.toList ++ t) = .name type.name.toList :: tokens t := by
  cases type with
  | u8 => exact tokens_name rfl (by decide) ht
  | u16 => exact tokens_name rfl (by decide) ht
  | u32 => exact tokens_name rfl (by decide) ht

theorem toList_header (q : State) (type : StateType) :
    s!"fn _state_{(q : Int)}(t: char) -> {type.name} \x7b".toList =
      "fn ".toList ++ (functionName q ++
        ("(t: char) -> ".toList ++ (type.name.toList ++ " \x7b".toList))) := by
  have hdigits : (toString (q : Int)).toList = Nat.toDigits 10 q := toList_number q
  have hstart : (toString "fn _state_").toList =
      "fn ".toList ++ ['_', 's', 't', 'a', 't', 'e', '_'] := rfl
  rw [String.toList_append, String.toList_append, String.toList_append, String.toList_append,
    hstart, hdigits, functionName]
  simp only [List.append_assoc]
  rfl

theorem tokens_header (q : State) (type : StateType) :
    tokensIn s!"fn _state_{(q : Int)}(t: char) -> {type.name} \x7b" =
      tokensIn "fn" ++ .name (functionName q) ::
        (tokensIn "(t: char) ->" ++ .name type.name.toList :: tokensIn "\x7b") := by
  have hfn : Scan.between.run "fn ".toList = (.between, tokensIn "fn") := by rfl
  have harrow : Scan.between.run "(t: char) -> ".toList = (.between, tokensIn "(t: char) ->") := by
    rfl
  rw [tokensIn, toList_header, tokens_append hfn, tokens_functionName q rfl, tokens_append harrow,
    tokens_type type rfl]
  rfl

/-- What the function of a state does. -/
def functionOf (a : Blueprint) (q : State) : Function :=
  ⟨functionName q, a.stateType.name.toList, a.edgesAt q, State.fail⟩

theorem reads_function (a : Blueprint) (q : State) :
    Reads function (tokensOf (stateFunction a q a.stateType.name)) (functionOf a q) := by
  intro rest
  have hend : Rejects arm (tokensIn "_ =>") := Rejects.bind (fun _ ↦ rfl) _
  have harms (us : List Token) := run_many (fun e (_ : e ∈ a.edgesAt q) ↦ reads_arm e)
    (fun e _ ↦ by simp [tokens_edgeArm]) (hend us)
  rw [List.map_id'] at harms
  simp only [stateFunction, tokensOf_line, tokensOf_indented, tokensOf_append, tokensOf_map,
    tokensOf_nil, tokens_header, tokens_failArm, List.append_assoc,
    List.cons_append, List.append_nil, function, functionOf, run_expect_bind,
    run_name_bind, run_number_bind, run_bind_of_some (harms _), run_pure_eq]

/-- What the code of an automaton does. -/
def machineOf (a : Blueprint) : Machine :=
  ⟨a.states.map fun q ↦ (q, actionOf q), a.interior.map (functionOf a)⟩

theorem run_functions (a : Blueprint) {rest : List Token} (hrest : function.run rest = none) :
    (many function).run (tokensOf (stateFunctions a) ++ rest) =
      some (a.interior.map (functionOf a), rest) := by
  have hne (q : State) : tokensOf (stateFunction a q a.stateType.name) ≠ [] := by
    have hinline : tokensIn "#[inline(always)]" ≠ [] := by decide
    simp [stateFunction, hinline]
  rw [stateFunctions, tokensOf_flatMap]
  exact run_many (fun q _ ↦ reads_function a q) (fun q _ ↦ hne q) hrest

theorem arePlain_consume (a : Blueprint) : Layout.arePlain (consume a) := by
  have harms := Layout.arePlain_map (f := dispatchArm) (fun _ ↦ rfl) a.states
  simp [consume, harms]

theorem arePlain_stateFunction (a : Blueprint) (q : Int) (type : String) :
    Layout.arePlain (stateFunction a q type) := by
  have harms := Layout.arePlain_map (f := edgeArm) (fun _ ↦ rfl) (a.edgesAt q)
  simp [stateFunction, failArm, harms]

theorem arePlain_stateFunctions (a : Blueprint) : Layout.arePlain (stateFunctions a) := by
  apply Layout.arePlain_flatMap
  intro q
  exact arePlain_stateFunction a q _

theorem arePlain_machine (a : Blueprint) : Layout.arePlain (machine a) := by
  simp [machine, arePlain_consume, arePlain_stateFunctions]

theorem run_function_nil : function.run [] = none :=
  run_bind_eq_none (run_expect_eq_none (by decide)) _

theorem run_machine (a : Blueprint) :
    Reader.machine.run (tokensOf (machine a)) = some (⟨none, machineOf a, none⟩, []) := by
  have hfunctions := run_functions a run_function_nil
  rw [List.append_nil] at hfunctions
  rw [machine, tokensOf_append, Reader.machine, (reads_consume a).run_bind,
    run_bind_of_some hfunctions, run_pure_eq, machineOf]

end Recognizer.Code
