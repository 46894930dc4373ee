import AlgebraTutor.Proofs.Pattern.OpenWork
import AlgebraTutor.Proofs.Step.Failure

/-!
# What a verdict rests on

The verdict on a submission that can be read rests on four tests: whether it repeats the text before it, whether it is
expected, how much there is left to do in it, and whether it is equivalent to the entry before it. A submission that keeps
the value of the entry before it is refused as not equivalent if it leaves less to do than that entry and no expected step is
equivalent to it. A submission that is found not to be simplified comes with an explanation wherever its analysis did not
fail.
-/

namespace AlgebraTutor

/-! ### Inputs that pass the check -/

/-- An analysis of what passes the check fails at the tree of a side. -/
theorem Analysis.exists_failure_of_check {text : String} {p : Input} {failure : Failure} (hcheck : Input.check text = .ok p)
    (h : ofText? text = .error failure) :
    ∃ side ∈ p.sides, ∃ t, Tree.ofText side = .ok t ∧ (t.patterns = .error failure ∨ t.hasOpenWork = .error failure) := by
  obtain ⟨hp, hsides⟩ := Input.of_check hcheck
  rw [ofText?, hp, Answer.ok_bind] at h
  rcases Answer.bind_eq_error_iff.mp h with hfindings | ⟨_, _, hpure⟩
  · exact exists_failure_of_findingsOf hsides hfindings
  · simp [pure, Except.pure] at hpure

/-- The problem that asks to solve `2x = 12/2` in one step. -/
def Problem.halved : Problem :=
  ⟨⟨"2x = 12/2", ["x = 3"], none, none, none, none, []⟩, by simp, by simp⟩

/-- The problem that asks to work out `3 + 4`. -/
def Problem.seven : Problem :=
  ⟨⟨"3 + 4", ["7"], none, none, none, none, []⟩, by simp, by simp⟩

namespace StepContext

variable {c : StepContext} {o : Outcome}

/-! ### The tests -/

theorem isExpected_eq_false_iff (c : StepContext) :
    c.isExpected = false ↔ ∀ step ∈ c.problem.steps, equivalent .standard c.submission step = false := by
  simp [isExpected]

/-- The verdict on a submission that is not expected and does not just repeat the entry before it. -/
theorem verdict_assess_of_unexpected (hnew : Text.trim c.submission ≠ Text.trim c.previous) (hexpected : c.isExpected = false) :
    c.assess.verdict =
      if c.repeatsPrevious (Analysis.ofText c.submission) then .validButNoProgress else .equivalenceFailure := by
  simp [assess, Outcome.ofAnalysis, hnew, hexpected]

theorem verdict_assess_of_repeated (hold : Text.trim c.submission = Text.trim c.previous) :
    c.assess.verdict = .validButNoProgress := by
  simp [assess, Outcome.ofAnalysis, hold]

theorem verdict_assess_eq_equivalenceFailure_iff (c : StepContext) :
    c.assess.verdict = .equivalenceFailure ↔ Text.trim c.submission ≠ Text.trim c.previous ∧ c.isExpected = false ∧
      c.repeatsPrevious (Analysis.ofText c.submission) = false := by
  by_cases hold : Text.trim c.submission = Text.trim c.previous
  · simp [verdict_assess_of_repeated hold, hold]
  · cases hexpected : c.isExpected with
    | true =>
      rw [verdict_assess_of_isExpected hold hexpected]
      split_ifs <;> simp
    | false =>
      rw [verdict_assess_of_unexpected hold hexpected]
      split_ifs with hrepeats <;> simp [hold, hrepeats]

theorem verdict_assess_eq_validButNoProgress_iff (c : StepContext) :
    c.assess.verdict = .validButNoProgress ↔ Text.trim c.submission = Text.trim c.previous ∨
      c.isExpected = false ∧ c.repeatsPrevious (Analysis.ofText c.submission) = true := by
  by_cases hold : Text.trim c.submission = Text.trim c.previous
  · simp [verdict_assess_of_repeated hold, hold]
  · cases hexpected : c.isExpected with
    | true =>
      rw [verdict_assess_of_isExpected hold hexpected]
      split_ifs <;> simp [hold]
    | false =>
      rw [verdict_assess_of_unexpected hold hexpected]
      split_ifs with hrepeats <;> simp [hold, hrepeats]

theorem isSimplified_of_correctButNotSimplified (h : c.assess.verdict = .correctButNotSimplified) :
    (Analysis.ofText c.submission).isSimplified = false := by
  have hcorrect : c.assess.isCorrect = true := by rw [Outcome.isCorrect, h]; rfl
  obtain ⟨hnew, hexpected⟩ := c.isCorrect_assess_iff.mp hcorrect
  rw [verdict_assess_of_isExpected hnew hexpected] at h
  split_ifs at h with hlast hsimplified
  simpa using hsimplified

/-! ### Submissions that keep the value -/

/-- A submission that keeps the value of the entry before it is no progress if it repeats the text of the entry, or if it is not
expected and leaves no less to do. It is called not equivalent exactly if it is a new text that is not expected and leaves
less to do, and it is accepted if it is new and expected. -/
theorem judge_of_equivalent_previous {input : Input} (hcheck : Input.check c.submission = .ok input)
    (hequivalent : equivalent .standard c.submission c.previous = true) : ∃ o, c.judge = .ok o ∧
    (o.verdict = .equivalenceFailure ↔
      (∀ step ∈ c.problem.steps, equivalent .standard c.submission step = false) ∧
        Text.trim c.submission ≠ Text.trim c.previous ∧
        (Analysis.ofText c.submission).patterns.length < (Analysis.ofText c.previous).patterns.length) ∧
    (o.verdict = .validButNoProgress ↔ Text.trim c.submission = Text.trim c.previous ∨
      (∀ step ∈ c.problem.steps, equivalent .standard c.submission step = false) ∧
        (Analysis.ofText c.previous).patterns.length ≤ (Analysis.ofText c.submission).patterns.length) ∧
    (o.isCorrect = true ↔ Text.trim c.submission ≠ Text.trim c.previous ∧
      ∃ step ∈ c.problem.steps, equivalent .standard c.submission step = true) := by
  have hrepeats : c.repeatsPrevious (Analysis.ofText c.submission) =
      decide ((Analysis.ofText c.previous).patterns.length ≤ (Analysis.ofText c.submission).patterns.length) := by
    rw [repeatsPrevious, hequivalent, Bool.true_and]
  refine ⟨c.assess, judge_of_check hcheck, ?_, ?_, ?_⟩
  · rw [verdict_assess_eq_equivalenceFailure_iff, isExpected_eq_false_iff, hrepeats, decide_eq_false_iff_not, Nat.not_le]
    exact and_left_comm
  · rw [verdict_assess_eq_validButNoProgress_iff, isExpected_eq_false_iff, hrepeats, decide_eq_true_iff]
  · rw [isCorrect_assess_iff, isExpected_iff]

/-- The statement with its sides exchanged leaves as much to do as the statement. -/
theorem judge_swapped_statement : ∃ o, (first Problem.halved "12/2 = 2x").judge = .ok o ∧ o.verdict = .validButNoProgress := by
  have hcheck : Input.check "12/2 = 2x" = .ok ⟨"12/2 = 2x", some ("12/2", "2x")⟩ := by decide +kernel
  obtain ⟨o, hjudge, -, hprogress, -⟩ := judge_of_equivalent_previous (c := first Problem.halved "12/2 = 2x") hcheck
    (by decide +kernel)
  exact ⟨o, hjudge, hprogress.mpr (.inr ⟨by decide +kernel, by decide +kernel⟩)⟩

/-- A step that does the arithmetic of the statement keeps its value, and is refused as not equivalent. -/
theorem judge_halved_arithmetic : (∃ input, Input.check "2x = 6" = .ok input) ∧
    equivalent .standard "2x = 6" (first Problem.halved "2x = 6").previous = true ∧
    ∃ o, (first Problem.halved "2x = 6").judge = .ok o ∧ o.verdict = .equivalenceFailure := by
  refine ⟨⟨⟨"2x = 6", some ("2x", "6")⟩, by decide +kernel⟩, by decide +kernel, exists_outcome (by decide +kernel)⟩

/-! ### Submissions that are not simplified -/

/-- A submission that is found not to be simplified comes with suggestions and hints exactly if its analysis did not fail. An
analysis fails only where the tree of a side cannot be analysed. -/
theorem judge_of_correctButNotSimplified (hjudge : c.judge = .ok o) (hverdict : o.verdict = .correctButNotSimplified) :
    (o.feedback ≠ [] ↔ ∃ a, Analysis.ofText? c.submission = .ok a) ∧
    ((Analysis.ofText c.submission).hints ≠ [] ↔ ∃ a, Analysis.ofText? c.submission = .ok a) ∧
    ∃ input, Input.check c.submission = .ok input ∧ ∀ failure, Analysis.ofText? c.submission = .error failure →
      ∃ side ∈ input.sides, ∃ t, Tree.ofText side = .ok t ∧ (t.patterns = .error failure ∨ t.hasOpenWork = .error failure) := by
  rcases judge_cases hjudge with ⟨rfl, input, hcheck⟩ | ⟨failure, -, -, rfl⟩
  · have hsimplified := isSimplified_of_correctButNotSimplified hverdict
    have hfeedback : (Analysis.ofText c.submission).feedback ≠ [] ↔ ∃ a, Analysis.ofText? c.submission = .ok a := by
      rw [← Analysis.patterns_ofText_ne_nil_iff hsimplified, Analysis.feedback, Ne, List.map_eq_nil_iff]
    refine ⟨hfeedback, ?_, input, hcheck, fun failure => Analysis.exists_failure_of_check hcheck⟩
    rw [Analysis.hints_ofText hsimplified]
    exact hfeedback
  · simp [Outcome.unreadable] at hverdict

/-- Another sum with the value of the answer. -/
theorem judge_other_sum : ∃ o, (first Problem.seven "5 + 2").judge = .ok o ∧ o.verdict = .correctButNotSimplified ∧
    o.feedback ≠ [] ∧ (Analysis.ofText "5 + 2").hints ≠ [] := by
  obtain ⟨o, hjudge, hverdict⟩ : ∃ o, (first Problem.seven "5 + 2").judge = .ok o ∧ o.verdict = .correctButNotSimplified :=
    exists_outcome (by decide +kernel)
  obtain ⟨hfeedback, hhints, -⟩ := judge_of_correctButNotSimplified hjudge hverdict
  have hanalysis : ∃ a, Analysis.ofText? "5 + 2" = .ok a := Answer.exists_of_isOk (by decide +kernel)
  exact ⟨o, hjudge, hverdict, hfeedback.mpr hanalysis, hhints.mpr hanalysis⟩

/-- The answer with a term that vanishes, but has no value by itself. -/
theorem judge_vanishing_root : ∃ o, (first Problem.seven "7 + 0*sqrt(-1)").judge = .ok o ∧
    o.verdict = .correctButNotSimplified ∧ o.feedback = [] ∧ (Analysis.ofText "7 + 0*sqrt(-1)").hints = [] := by
  obtain ⟨o, hjudge, hverdict⟩ : ∃ o, (first Problem.seven "7 + 0*sqrt(-1)").judge = .ok o ∧
      o.verdict = .correctButNotSimplified := exists_outcome (by decide +kernel)
  obtain rfl := judge_eq_assess hjudge (by rw [Outcome.isCorrect, hverdict]; rfl)
  exact ⟨_, hjudge, hverdict, by decide +kernel, by decide +kernel⟩

end StepContext

end AlgebraTutor
