import Mathlib.Data.List.Induction
import Recognizer.Command.Run
import Recognizer.Proofs.Files
/-!
What runs of the command line do to files. A run either stops and leaves the files alone, or prints
the code asked for, or writes it to the one path asked for. Main statement: over any sequence of
runs nothing else changes, and without force nothing that was there.
-/

namespace Recognizer.Command

variable {o : Options} {t written : FileTree} {listed : List Word} {notes : Notes} {a : Automaton}
  {path : String} {place : Place}

/-- The code for the words of the arguments and then those of the word list, if one is named; where
there are none at all, for the keywords of Lox. -/
def Options.Renders (o : Options) (t : FileTree) (text : String) : Prop :=
  ∃ listed notes built,
    (if o.wordList = "" then listed = [] else t.wordList o.wordList = .ok listed) ∧
    let given := o.words ++ listed.map String.ofList
    ({ strict := o.strict, verbose := o.verbose } : Builder).offerAll
      ((if given = [] then Lox.keywords else given).map .text) = (notes, .ok built) ∧
    text = Code.render built.automaton (if o.standalone then .standalone true else .machine) 4

/-- What a run can come to. -/
inductive Ending (o : Options) (t : FileTree) (outcome : Outcome) : Prop
  | stopped : outcome.status ≠ .ok 0 → outcome.tree = t → Ending o t outcome
  | printed (text : String) : o.Renders t text → o.output = "" → outcome.status = .ok 0 →
      outcome.stdout = text → outcome.tree = t → Ending o t outcome
  | wrote (text : String) : o.Renders t text → o.output ≠ "" →
      t.isPresent o.output = false ∨ o.force → outcome.status = .ok 0 →
      t.write o.output text.toUTF8 = .ok outcome.tree → Ending o t outcome

theorem ending_of_exit {p : Plan} (h : p.finish = .exit 1) : Ending o t (p.carryOut t) := by
  rw [Plan.carryOut, h]
  exact .stopped (by simp) rfl

theorem ending_of_fail {p : Plan} {fault : ListFault} (h : p.finish = .fail fault) :
    Ending o t (p.carryOut t) := by
  rw [Plan.carryOut, h]
  exact .stopped nofun rfl

theorem ending_planFor (hr : o.Renders t (Code.render a o.form 4))
    (hp : o.output ≠ "" → t.isPresent o.output = false ∨ o.force) :
    Ending o t ((o.planFor notes a).carryOut t) := by
  by_cases ho : o.output = ""
  · simp only [Options.planFor, if_pos ho]
    exact .printed _ hr ho rfl rfl rfl
  · simp only [Options.planFor, if_neg ho, Plan.carryOut]
    cases hw : t.write o.output (Code.render a o.form 4).toUTF8 with
    | error fault => exact .stopped nofun rfl
    | ok written => exact .wrote _ hr ho (hp ho) rfl hw

theorem ending_planWords
    (hl : if o.wordList = "" then listed = [] else t.wordList o.wordList = .ok listed)
    (hp : o.output ≠ "" → t.isPresent o.output = false ∨ o.force) :
    Ending o t ((o.planWords listed).carryOut t) := by
  cases h : o.builder.offerAll (o.offers listed) with
  | mk notes result =>
    cases result with
    | error refusal =>
      apply ending_of_exit
      simp [Options.planWords, h]
    | ok built =>
      simp only [Options.planWords, h]
      exact ending_planFor ⟨listed, notes, built, hl, h, rfl⟩ hp

theorem ending (o : Options) (t : FileTree) : Ending o t (o.run t) := by
  rw [Options.run, Options.plan]
  split
  · exact ending_of_exit rfl
  · next hrefuse =>
    have hp (ho : o.output ≠ "") : t.isPresent o.output = false ∨ o.force := by
      cases hf : o.force <;> simp_all
    split
    · next hw => exact ending_planWords (by rw [if_pos hw]) hp
    · next hw =>
      have hlist : WordList.ofContent o.wordList (t.read o.wordList) = t.wordList o.wordList := rfl
      rw [hlist]
      cases hc : t.wordList o.wordList with
      | ok listed => exact ending_planWords (by rw [if_neg hw, hc]) hp
      | error fault =>
        cases fault with
        | line path fault => exact ending_of_exit rfl
        | path path fault => exact ending_of_fail rfl
        | notText path => exact ending_of_fail rfl

/-- Runs in turn, each on the files that the one before it left. -/
def treeAfter (t : FileTree) (past : List Options) : FileTree :=
  past.foldl (fun t o ↦ (o.run t).tree) t

theorem treeAfter_concat (t : FileTree) (past : List Options) (o : Options) :
    treeAfter t (past ++ [o]) = (o.run (treeAfter t past)).tree := by
  simp [treeAfter]

/-- Without force a run keeps what stands at any path. -/
theorem node?_run (hf : o.force = false) (hpath : t.isPresent path) :
    (o.run t).tree.node? path = t.node? path := by
  cases ending o t with
  | stopped _ ht => rw [ht]
  | printed _ _ _ _ _ ht => rw [ht]
  | wrote text _ _ hp _ hw =>
    obtain ⟨place, hresolve, hn, hput⟩ := FileTree.write_eq_ok hw
    obtain ⟨other, hother, hsome⟩ := FileTree.exists_of_isPresent hpath
    have hnone : t.find? place = none := by
      have habsent := hp.resolve_right (by simp [hf])
      rw [FileTree.isPresent, hresolve] at habsent
      simpa using habsent
    -- Nothing stood at the place written to, so it is not the one that the path names.
    have hne : other ≠ place := by
      rintro rfl
      exact hsome hnone
    rw [hput, FileTree.node?_put_of_ne hn hother hne]

theorem isPresent_run (hf : o.force = false) (hpath : t.isPresent path) :
    (o.run t).tree.isPresent path := by
  rw [FileTree.isPresent_eq_isSome, node?_run hf hpath, ← FileTree.isPresent_eq_isSome]
  exact hpath

theorem node?_treeAfter {past : List Options} (hf : ∀ o ∈ past, o.force = false)
    (hpath : t.isPresent path) :
    (treeAfter t past).isPresent path ∧ (treeAfter t past).node? path = t.node? path := by
  induction past using List.reverseRecOn with
  | nil => exact ⟨hpath, rfl⟩
  | append_singleton past o ih =>
    obtain ⟨hpresent, hnode⟩ := ih fun p hp ↦ hf p (List.mem_append_left _ hp)
    have ho : o.force = false := hf o (by simp)
    rw [treeAfter_concat]
    exact ⟨isPresent_run ho hpresent, (node?_run ho hpresent).trans hnode⟩

/-- The run writes to this place. -/
def Options.WritesTo (o : Options) (t : FileTree) (place : Place) : Prop :=
  (o.run t).status = .ok 0 ∧ o.output ≠ "" ∧ t.resolve o.output = .ok place

theorem writesTo_of_find?_ne (h : (o.run t).tree.find? place ≠ t.find? place) :
    o.WritesTo t place := by
  cases ending o t with
  | stopped _ ht => exact absurd (by rw [ht]) h
  | printed _ _ _ _ _ ht => exact absurd (by rw [ht]) h
  | wrote text _ ho _ hs hw =>
    obtain ⟨reached, hresolve, -, hput⟩ := FileTree.write_eq_ok hw
    have hplace : place = reached := by
      by_contra hne
      exact h (by rw [hput, FileTree.find?_put_of_ne t _ hne])
    exact ⟨hs, ho, hplace ▸ hresolve⟩

theorem exists_writesTo {past : List Options}
    (h : (treeAfter t past).find? place ≠ t.find? place) :
    ∃ earlier o later, past = earlier ++ o :: later ∧ o.WritesTo (treeAfter t earlier) place := by
  induction past using List.reverseRecOn with
  | nil => exact absurd rfl h
  | append_singleton past o ih =>
    by_cases hlast : (o.run (treeAfter t past)).tree.find? place = (treeAfter t past).find? place
    · rw [treeAfter_concat, hlast] at h
      obtain ⟨earlier, p, later, rfl, hp⟩ := ih h
      exact ⟨earlier, p, later ++ [o], by simp, hp⟩
    · exact ⟨past, o, [], rfl, writesTo_of_find?_ne hlast⟩

/-- What a run that returns zero has put out as code. -/
theorem exists_renders (hs : (o.run t).status = .ok 0) : ∃ text, o.Renders t text ∧
    (o.output = "" → (o.run t).stdout = text) ∧
    (o.output ≠ "" → ∃ place, t.resolve o.output = .ok place ∧
      (o.run t).tree.read o.output = .ok text.toUTF8 ∧
      ∀ other, other ≠ place → (o.run t).tree.find? other = t.find? other) := by
  cases ending o t with
  | stopped hne _ => exact absurd hs hne
  | printed text hr ho _ hout _ => exact ⟨text, hr, fun _ ↦ hout, fun hne ↦ absurd ho hne⟩
  | wrote text hr ho _ _ hw =>
    obtain ⟨place, hresolve, hn, hput⟩ := FileTree.write_eq_ok hw
    refine ⟨text, hr, fun he ↦ absurd he ho, fun _ ↦ ⟨place, hresolve, ?_, ?_⟩⟩
    · rw [hput, FileTree.read_put hn hresolve]
    · intro other hne
      rw [hput, FileTree.find?_put_of_ne t _ hne]

/-- In any sequence of runs, one that does not return zero, or is given no output path, leaves the
files as they were. One that returns zero has rendered the words as they were before it, and has
either printed just that, or put just that where its output path leads and changed nothing else.
Without force, nothing that stood at a path is changed, by one run or by many; and what differs in
the end is where some run has written. -/
theorem files_after_runs (t : FileTree) (past : List Options) (o : Options) :
    let before := treeAfter t past
    let outcome := o.run before
    (outcome.status ≠ .ok 0 ∨ o.output = "" → outcome.tree = before) ∧
    (outcome.status = .ok 0 → ∃ text, o.Renders before text ∧
      (o.output = "" → outcome.stdout = text) ∧
      (o.output ≠ "" → ∃ place, before.resolve o.output = .ok place ∧
        outcome.tree.read o.output = .ok text.toUTF8 ∧
        ∀ other, other ≠ place → outcome.tree.find? other = before.find? other)) ∧
    (o.force = false → ∀ path, before.isPresent path →
      outcome.tree.node? path = before.node? path) ∧
    ((∀ p ∈ past, p.force = false) → ∀ path, t.isPresent path →
      before.node? path = t.node? path) ∧
    ∀ place, before.find? place ≠ t.find? place →
      ∃ earlier p later, past = earlier ++ p :: later ∧ p.WritesTo (treeAfter t earlier) place := by
  intro before outcome
  refine ⟨?_, exists_renders, fun hf path ↦ node?_run hf,
    fun hf path hp ↦ (node?_treeAfter hf hp).2, fun place ↦ exists_writesTo⟩
  intro h
  cases ending o before with
  | stopped _ ht => exact ht
  | printed _ _ _ _ _ ht => exact ht
  | wrote _ _ ho _ hs _ => exact absurd h (not_or.2 ⟨not_not.2 hs, ho⟩)

end Recognizer.Command
