import AlgebraTutor.Proofs.Comparable
import AlgebraTutor.Proofs.Step.Solved
import AlgebraTutor.Step.Session

/-!
# Accepted submissions

Two searches decide about a submission: whether it is equivalent to any expected step, and which step it is taken for. They
agree. A submission that is expected at all is taken for some step, and it is equivalent to that step even if it was found
by its text.
-/

namespace AlgebraTutor

section FirstIndex

variable {α : Type} {p : α → Bool}

theorem satisfies_of_firstIndex? {as : List α} {place : Nat} (hfound : firstIndex? p as = some place) :
    p (as.get ⟨place, lt_length_of_firstIndex? hfound⟩) = true := by
  induction as generalizing place with
  | nil => simp [firstIndex?] at hfound
  | cons a as ih =>
    by_cases ha : p a = true
    · simp only [firstIndex?, ha, if_true, Option.some.injEq] at hfound
      subst hfound
      exact ha
    · simp only [firstIndex?, ha, Bool.false_eq_true, if_false, Option.map_eq_some_iff] at hfound
      obtain ⟨earlier, hearlier, rfl⟩ := hfound
      exact ih hearlier

theorem exists_firstIndex? {as : List α} (h : ∃ a ∈ as, p a = true) : ∃ place, firstIndex? p as = some place := by
  obtain ⟨a, ha, hp⟩ := h
  refine Option.ne_none_iff_exists'.mp fun hnone => ?_
  rw [firstIndex?_eq_none_iff.mp hnone a ha] at hp
  exact Bool.false_ne_true hp

end FirstIndex

/-! ### The step that an expected submission is taken for -/

section Reached

variable {input : String} {steps : List String}

theorem exists_reachedStep? (hexpected : ∃ step ∈ steps, equivalent .standard input step = true) :
    ∃ place, reachedStep? input steps = some place := by
  obtain ⟨place, hplace⟩ := exists_firstIndex? hexpected
  rw [reachedStep?, hplace]
  cases firstIndex? (fun step => Text.trim step == Text.trim input) steps with
  | none => exact ⟨place, rfl⟩
  | some earlier => exact ⟨earlier, rfl⟩

/-- An expected submission is equivalent to the step that it is taken for: if that step was found by its text, because the
submission, being equivalent to something, is equivalent to itself. -/
theorem equivalent_of_reachedStep? {place : Nat} (hexpected : ∃ step ∈ steps, equivalent .standard input step = true)
    (hreached : reachedStep? input steps = some place) :
    equivalent .standard input (steps.get ⟨place, StepContext.reachedStep?_lt hreached⟩) = true := by
  obtain ⟨step, -, hstep⟩ := hexpected
  rcases Option.or_eq_some_iff.mp hreached with htext | ⟨-, hequivalent⟩
  · have htrim := beq_iff_eq.mp (satisfies_of_firstIndex? htext)
    exact (isComparable_of_equivalent hstep).equivalent htrim.symm
  · exact satisfies_of_firstIndex? hequivalent

end Reached

/-! ### A problem of the library -/

theorem Library.isSome_find?_twoStep : (find? "solve-004").isSome = true := by
  decide +kernel

/-- The problem that asks to solve `2x + 5 = 11`. -/
def Library.twoStep : Problem :=
  (find? "solve-004").get isSome_find?_twoStep

namespace StepContext

/-! ### What makes a submission accepted -/

theorem isExpected_iff (c : StepContext) :
    c.isExpected = true ↔ ∃ step ∈ c.problem.steps, equivalent .standard c.submission step = true := by
  simp [isExpected]

/-- The verdict on an expected submission that does not just repeat the entry before it. -/
theorem verdict_assess_of_isExpected {c : StepContext} (hnew : Text.trim c.submission ≠ Text.trim c.previous)
    (hexpected : c.isExpected = true) :
    c.assess.verdict =
      if c.reachesLast then
        if (Analysis.ofText c.submission).isSimplified then .correctFinalStep else .correctButNotSimplified
      else .correctIntermediateStep := by
  simp [assess, Outcome.ofAnalysis, hnew, hexpected]

theorem isCorrect_assess_iff (c : StepContext) :
    c.assess.isCorrect = true ↔ Text.trim c.submission ≠ Text.trim c.previous ∧ c.isExpected = true := by
  constructor
  · intro hcorrect
    simp only [assess, Outcome.ofAnalysis, Outcome.isCorrect] at hcorrect
    split_ifs at hcorrect with hold hexpected <;> first | exact ⟨hold, hexpected⟩ | simp [Verdict.isCorrect] at hcorrect
  · rintro ⟨hnew, hexpected⟩
    rw [Outcome.isCorrect, verdict_assess_of_isExpected hnew hexpected]
    split_ifs <;> rfl

theorem judge_of_check {c : StepContext} {input : Input} (hcheck : Input.check c.submission = .ok input) :
    c.judge = .ok c.assess := by
  rw [judge, hcheck]

/-- A submission is accepted if it can be read, is not the text before it over again, and is equivalent to an expected
step. -/
theorem isAccepted_iff (c : StepContext) :
    c.isAccepted = true ↔ (∃ input, Input.check c.submission = .ok input) ∧
      Text.trim c.submission ≠ Text.trim c.previous ∧
      ∃ step ∈ c.problem.steps, equivalent .standard c.submission step = true := by
  rw [← isExpected_iff, ← isCorrect_assess_iff, isAccepted, judge]
  cases Input.check c.submission with
  | ok input => simp [admits]
  | error failure =>
    have hrefused : admits (if failure.isInputError then .ok (.unreadable failure.message?) else .error failure) = false := by
      split_ifs <;> rfl
    simp [hrefused]

/-! ### The final verdict -/

/-- A final verdict ends the problem: with the submission in the history the problem is solved, and no expected step is
left. -/
theorem isSolved_of_correctFinalStep {c : StepContext} {o : Outcome} (hjudge : c.judge = .ok o)
    (hfinal : o.verdict = .correctFinalStep) : c.advance.isSolved = true ∧ c.advance.nextSteps = [] := by
  have haccepted : o.isCorrect = true := by rw [Outcome.isCorrect, hfinal]; rfl
  obtain rfl := judge_eq_assess hjudge haccepted
  obtain ⟨hnew, hexpected⟩ := c.isCorrect_assess_iff.mp haccepted
  rw [verdict_assess_of_isExpected hnew hexpected] at hfinal
  split_ifs at hfinal with hlast hsimplified
  refine ⟨?_, nextSteps_advance_of_reachesLast hlast⟩
  have hanswer := equivalent_of_reachedStep? (c.isExpected_iff.mp hexpected) (beq_iff_eq.mp hlast)
  rw [List.get_eq_getElem, ← List.getLast_eq_getElem c.problem.steps_ne_nil] at hanswer
  rw [isSolved_advance, hsimplified, Bool.and_true]
  exact hanswer

set_option maxRecDepth 100000 in
/-- The answer of a library problem, submitted first of all with blanks around it. -/
theorem isSolved_of_padded_answer : ∃ o,
    (first Library.twoStep "  x = 3 ").judge = .ok o ∧ o.verdict = .correctFinalStep ∧
      (first Library.twoStep "  x = 3 ").advance.isSolved = true ∧
      (first Library.twoStep "  x = 3 ").advance.nextSteps = [] := by
  obtain ⟨o, hjudge, hverdict⟩ : ∃ o,
      (first Library.twoStep "  x = 3 ").judge = .ok o ∧ o.verdict = .correctFinalStep :=
    exists_outcome (by decide +kernel)
  exact ⟨o, hjudge, hverdict, isSolved_of_correctFinalStep hjudge hverdict⟩

end StepContext

end AlgebraTutor
