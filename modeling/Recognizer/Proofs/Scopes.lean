import Mathlib.Data.List.Infix
import Recognizer.Proofs.Indentation
/-!
Bodies in their own scope, left at their end or before it. Main statement: a printer that is called
for each line and each change of depth never counts below zero, and has the depth of before when it
is through with a body whose blocks are balanced as far as it goes, wherever that body and those
inside it are left.
-/

namespace Recognizer

/-- What is asked of a printer in turn. -/
inductive Call
  | write (text : String)
  | enter
  | leave

mutual

/-- A body is left behind its last call, be that at its end or where it is aborted. -/
def Step.calls : Step → List Call
  | .line text => [.write text]
  | .block => [.enter]
  | .blockEnd => [.leave]
  | .indented body => .enter :: Layout.calls body ++ [.leave]
  | .abort => []

def Layout.calls : List Step → List Call
  | [] => []
  | .abort :: _ => []
  | s :: steps => s.calls ++ Layout.calls steps

end

mutual

/-- The step without what stands behind an abort in its bodies. -/
def Step.performed : Step → Step
  | .indented body => .indented (Layout.performed body)
  | s => s

/-- The steps that are carried out: those before the first abort. -/
def Layout.performed : List Step → List Step
  | [] => []
  | .abort :: _ => []
  | s :: steps => s.performed :: Layout.performed steps

end

mutual

/-- All bodies in the step, at any level. -/
def Step.bodies : Step → List (List Step)
  | .indented body => body :: Layout.bodies body
  | _ => []

def Layout.bodies : List Step → List (List Step)
  | [] => []
  | s :: steps => s.bodies ++ Layout.bodies steps

end

/-- What a bare block, and a bare end of one, add to the depth. -/
def Step.rise : Step → Int
  | .block => 1
  | .blockEnd => -1
  | _ => 0

namespace Layout

/-- A printer that counts with integers. -/
structure Pen where
  lines : List String
  depth : Int

def Pen.call (width : Int) (p : Pen) : Call → Pen
  | .write text =>
    let blanks := String.ofList (List.replicate (p.depth * width).toNat ' ')
    { p with lines := p.lines ++ [if text = "" then "" else blanks ++ text] }
  | .enter => { p with depth := p.depth + 1 }
  | .leave => { p with depth := if 0 < p.depth then p.depth - 1 else p.depth }

def Pen.run (width : Int) (p : Pen) (calls : List Call) : Pen := calls.foldl (call width) p

def rise : List Step → Int
  | [] => 0
  | s :: steps => s.rise + rise steps

/-- Each end of a block has its block before it in the same body, and each block has its end. -/
structure Balanced (body : List Step) : Prop where
  nonneg : ∀ past, past <+: body → 0 ≤ rise past
  settled : rise body = 0

instance : DecidablePred Balanced := fun body ↦
  decidable_of_iff ((∀ past ∈ body.inits, 0 ≤ rise past) ∧ rise body = 0)
    ⟨fun h ↦ ⟨fun past hp ↦ h.1 past ((List.mem_inits past body).2 hp), h.2⟩,
      fun h ↦ ⟨fun past hp ↦ h.nonneg past ((List.mem_inits past body).1 hp), h.settled⟩⟩

variable {steps body : List Step} {s : Step}

@[simp] theorem rise_nil : rise [] = 0 := rfl

@[simp] theorem rise_cons (s : Step) (steps : List Step) :
    rise (s :: steps) = s.rise + rise steps := rfl

@[simp] theorem rise_performed (s : Step) : s.performed.rise = s.rise := by
  cases s <;> rfl

section Abort

variable (h : s ≠ .abort)

include h

theorem calls_cons (steps : List Step) : calls (s :: steps) = s.calls ++ calls steps := by
  cases s with
  | abort => exact absurd rfl h
  | _ => rfl

theorem performed_cons (steps : List Step) :
    performed (s :: steps) = s.performed :: performed steps := by
  cases s with
  | abort => exact absurd rfl h
  | _ => rfl

theorem print_cons (width : Int) (depth : Nat) (steps : List Step) :
    print width depth (s :: steps) =
      let first := step width depth s
      let rest := print width first.depth steps
      ⟨first.lines ++ rest.lines, first.depths ++ rest.depths, rest.depth, rest.aborted⟩ := by
  cases s with
  | abort => exact absurd rfl h
  | _ => rfl

end Abort

section Calls

theorem Pen.run_append (width : Int) (p : Pen) (calls more : List Call) :
    p.run width (calls ++ more) = (p.run width calls).run width more := List.foldl_append

/-- No call takes a depth below zero. -/
theorem Pen.call_nonneg {p : Pen} (hp : 0 ≤ p.depth) (width : Int) (c : Call) :
    0 ≤ (p.call width c).depth := by
  cases c with
  | write text => exact hp
  | enter => exact Int.add_nonneg hp Int.one_nonneg
  | leave =>
    rw [call]
    dsimp only
    split <;> omega

theorem Pen.run_nonneg {p : Pen} (hp : 0 ≤ p.depth) (width : Int) (calls : List Call) :
    0 ≤ (p.run width calls).depth := by
  induction calls generalizing p with
  | nil => exact hp
  | cons c calls ih => exact ih (Pen.call_nonneg hp width c)

theorem Pen.call_leave (width : Int) (lines : List String) (depth : Nat) :
    Pen.call width ⟨lines, depth⟩ .leave = ⟨lines, (depth - 1 : Nat)⟩ := by
  rw [call]
  dsimp only
  split <;> congr <;> omega

mutual

theorem run_step (width : Int) (lines : List String) (depth : Nat) : ∀ s : Step,
    Pen.run width ⟨lines, depth⟩ s.calls =
      ⟨lines ++ (step width depth s).lines, (step width depth s).depth⟩
  | .line text => rfl
  | .block => by simp [Step.calls, Pen.run, Pen.call, step]
  | .blockEnd => by simp [Step.calls, Pen.run, Pen.call_leave, step]
  | .indented body => by
    have hbody := run_calls width lines (depth + 1) body
    -- the last call comes behind those of the body, whether these end with it or with an abort
    have henter : Pen.run width ⟨lines, depth⟩ (Step.indented body).calls =
        (Pen.run width ⟨lines, (depth + 1 : Nat)⟩ (calls body)).call width .leave :=
      Pen.run_append width ⟨lines, (depth + 1 : Nat)⟩ (calls body) [.leave]
    rw [henter, hbody, Pen.call_leave]
    rfl
  | .abort => by simp [Step.calls, Pen.run, step]

/-- The steps print what the pen writes when it is called for them in turn. -/
theorem run_calls (width : Int) (lines : List String) (depth : Nat) : ∀ steps : List Step,
    Pen.run width ⟨lines, depth⟩ (calls steps) =
      ⟨lines ++ (print width depth steps).lines, (print width depth steps).depth⟩
  | [] => by simp [calls, Pen.run]
  | s :: steps => by
    by_cases h : s = .abort
    · subst h
      simp [calls, Pen.run, print, step]
    · rw [calls_cons h, Pen.run_append, run_step width lines depth s,
        run_calls width _ _ steps, print_cons h, List.append_assoc]

end

end Calls

section Depth

mutual

/-- A step changes the depth by its own rise, where the bodies in it are balanced. -/
theorem depth_step (width : Int) (depth : Nat) : ∀ s : Step,
    (∀ body ∈ s.performed.bodies, Balanced body) → 0 ≤ depth + s.rise →
      ((step width depth s).depth : Int) = depth + s.rise
  | .line text, _, _ => by simp [step, Step.rise]
  | .block, _, _ => by simp [step, Step.rise]
  | .blockEnd, _, hd => by
    simp only [step, Step.rise] at hd ⊢
    omega
  | .indented body, hb, _ => by
    obtain ⟨hbody, hinner⟩ := List.forall_mem_cons.1 hb
    -- the body is balanced above its own start, so no end in it meets the depth below that
    have hdepth := depth_print width (depth + 1) body hinner
      fun past hp ↦ Int.add_nonneg (Int.natCast_nonneg _) (hbody.nonneg past hp)
    rw [hbody.settled] at hdepth
    simp only [step, Step.rise]
    omega
  | .abort, _, _ => by simp [step, Step.rise]

theorem depth_print (width : Int) (depth : Nat) : ∀ steps : List Step,
    (∀ body ∈ bodies (performed steps), Balanced body) →
    (∀ past, past <+: performed steps → 0 ≤ depth + rise past) →
      ((print width depth steps).depth : Int) = depth + rise (performed steps)
  | [], _, _ => by simp [performed]
  | s :: steps, hb, hd => by
    by_cases h : s = .abort
    · subst h
      simp [performed, print, step]
    · rw [performed_cons h] at hb hd ⊢
      rw [bodies, List.forall_mem_append] at hb
      have hstep := depth_step width depth s hb.1
        (by simpa using hd [s.performed] ⟨performed steps, rfl⟩)
      have hrest := depth_print width (step width depth s).depth steps hb.2 fun past hp ↦ by
        have hlonger := hd (s.performed :: past) ((List.prefix_cons_inj _).2 hp)
        rw [rise_cons, rise_performed] at hlonger
        omega
      rw [print_cons h, rise_cons, rise_performed]
      dsimp only
      omega

end

/-- A body whose blocks are balanced as far as it is carried out, and those in the bodies inside it
likewise, leaves the depth as it was. -/
theorem depth_indented (hb : ∀ inner ∈ (Step.indented body).performed.bodies, Balanced inner)
    (width : Int) (depth : Nat) : (step width depth (.indented body)).depth = depth := by
  have hrise : (Step.indented body).rise = 0 := rfl
  have h := depth_step width depth (.indented body) hb (by omega)
  omega

end Depth

section Bare

mutual

theorem isPlain_performed : ∀ s : Step, s ≠ .abort → s.rise = 0 →
    (∀ body ∈ s.bodies, ∀ t ∈ body, t.rise = 0) → s.performed.isPlain
  | .line _, _, _, _ => rfl
  | .block, _, hs, _ => absurd hs (by decide)
  | .blockEnd, _, hs, _ => absurd hs (by decide)
  | .indented body, _, _, hb => by
    obtain ⟨hbody, hinner⟩ := List.forall_mem_cons.1 hb
    exact arePlain_performed body hbody hinner
  | .abort, h, _, _ => absurd rfl h

/-- Without bare blocks, what is carried out are lines and bodies. -/
theorem arePlain_performed : ∀ steps : List Step, (∀ s ∈ steps, s.rise = 0) →
    (∀ body ∈ bodies steps, ∀ s ∈ body, s.rise = 0) → arePlain (performed steps)
  | [], _, _ => rfl
  | s :: steps, hs, hb => by
    by_cases h : s = .abort
    · subst h
      rfl
    · obtain ⟨hfirst, hrest⟩ := List.forall_mem_cons.1 hs
      rw [bodies, List.forall_mem_append] at hb
      rw [performed_cons h, arePlain, Bool.and_eq_true]
      exact ⟨isPlain_performed s h hfirst hb.1, arePlain_performed steps hrest hb.2⟩

end

mutual

theorem calls_performed_step : ∀ s : Step, s.performed.calls = s.calls
  | .line _ => rfl
  | .block => rfl
  | .blockEnd => rfl
  | .indented body => by
    rw [Step.performed, Step.calls, Step.calls, calls_performed body]
  | .abort => rfl

/-- What is not carried out makes no calls. -/
theorem calls_performed : ∀ steps : List Step, calls (performed steps) = calls steps
  | [] => rfl
  | s :: steps => by
    by_cases h : s = .abort
    · subst h
      rfl
    · have hp : s.performed ≠ .abort := by
        cases s with
        | abort => exact absurd rfl h
        | _ => nofun
      rw [performed_cons h, calls_cons hp, calls_cons h, calls_performed_step s,
        calls_performed steps]

end

theorem lines_print_performed (width : Int) (depth : Nat) (steps : List Step) :
    (print width depth (performed steps)).lines = (print width depth steps).lines := by
  have hperformed := run_calls width [] depth (performed steps)
  rw [calls_performed, run_calls width [] depth steps, Pen.mk.injEq] at hperformed
  exact hperformed.1.symm

/-- Without bare blocks, each line is indented once for each body that it stands in. -/
theorem toList_lines_print (hs : ∀ body ∈ steps :: bodies steps, ∀ s ∈ body, s.rise = 0)
    (width : Int) : (print width 0 steps).lines.map String.toList =
      (outline 0 (performed steps)).map fun line ↦
        indented (max 0 (width * line.1)).toNat line.2.toList := by
  obtain ⟨hsteps, hbodies⟩ := List.forall_mem_cons.1 hs
  have hplain := arePlain_performed steps hsteps hbodies
  rw [← lines_print_performed, (print_of_plain width 0 _ hplain).1, placed, List.map_map]
  refine List.map_congr_left fun line _ ↦ ?_
  have hmax : (max 0 (width * line.1)).toNat = ((line.1 : Int) * width).toNat := by
    rw [Int.mul_comm]
    omega
  rw [Function.comp_apply, toList_place, hmax]

end Bare

/-- A pen that is called for the steps in turn writes what they print and counts the depth at which
they print, and no call takes it below zero. A body whose blocks are balanced as far as it is
carried out, and those in the bodies inside it likewise, ends at the depth at which it begins. Where
there are no bare blocks, a line that is not empty has blanks put before it for each body around it.
-/
theorem scopes_keep_depth (width : Int) (depth : Nat) (steps : List Step) :
    let pen : Pen := ⟨[], depth⟩
    (∀ past, past <+: calls steps → 0 ≤ (pen.run width past).depth) ∧
    pen.run width (calls steps) =
      ⟨(print width depth steps).lines, (print width depth steps).depth⟩ ∧
    (∀ body, (∀ inner ∈ (Step.indented body).performed.bodies, Balanced inner) →
      (step width depth (.indented body)).depth = depth) ∧
    ((∀ body ∈ steps :: bodies steps, ∀ s ∈ body, s.rise = 0) →
      (print width 0 steps).lines.map String.toList =
        (outline 0 (performed steps)).map fun line ↦
          indented (max 0 (width * line.1)).toNat line.2.toList) := by
  intro pen
  have hpen : 0 ≤ pen.depth := Int.natCast_nonneg depth
  exact ⟨fun past _ ↦ Pen.run_nonneg hpen width past, run_calls width [] depth steps,
    fun body hb ↦ depth_indented hb width depth, fun hs ↦ toList_lines_print hs width⟩

/-- Bodies that are left before they end blocks which are not open, and bodies without bare blocks
that are left before their last line. -/
theorem scopes_keep_depth_aborted :
    let body : List Step := [.block, .line "a", .indented [.block, .blockEnd, .abort, .blockEnd],
      .blockEnd, .abort, .blockEnd, .blockEnd]
    let steps : List Step := [.indented [.line "x", .indented [.line "y", .abort], .line "",
      .abort, .line "z"], .line "w"]
    (∀ inner ∈ (Step.indented body).performed.bodies, Balanced inner) ∧
      (∀ body ∈ steps :: bodies steps, ∀ s ∈ body, s.rise = 0) ∧
      (step 4 3 (.indented body)).depth = 3 ∧
      (print 4 0 steps).lines.map String.toList =
        ["    x".toList, "        y".toList, [], "w".toList] := by
  intro body steps
  have hb : ∀ inner ∈ (Step.indented body).performed.bodies, Balanced inner := by decide
  have hs : ∀ body ∈ steps :: bodies steps, ∀ s ∈ body, s.rise = 0 := by decide
  obtain ⟨-, -, hdepth, hlines⟩ := scopes_keep_depth 4 3 steps
  exact ⟨hb, hs, hdepth body hb, hlines hs⟩

end Layout

end Recognizer
