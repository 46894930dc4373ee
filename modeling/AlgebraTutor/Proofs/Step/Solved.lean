import Mathlib.Data.List.Induction
import AlgebraTutor.Problem.Library
import AlgebraTutor.Step.Outcome

/-!
# The outcome of a solving step

A problem counts as solved when the last accepted step is equivalent to the answer and simplified. The outcome of that
step looks elsewhere: at the first expected step that the submission is taken for. The two agree exactly when that step
is the answer, and `StepContext.judge_of_isSolved` says what happens in either case.
-/

namespace AlgebraTutor

/-! ### The first place that satisfies a predicate -/

section FirstIndex

variable {α : Type} {p : α → Bool}

theorem firstIndex?_eq_none_iff {as : List α} : firstIndex? p as = none ↔ ∀ a ∈ as, p a = false := by
  induction as with
  | nil => simp [firstIndex?]
  | cons a as ih =>
    by_cases ha : p a = true
    · simp [firstIndex?, ha]
    · simp [firstIndex?, ha, ih]

theorem lt_length_of_firstIndex? {as : List α} {place : Nat} (hfound : firstIndex? p as = some place) :
    place < as.length := by
  induction as generalizing place with
  | nil => simp [firstIndex?] at hfound
  | cons a as ih =>
    by_cases ha : p a = true
    · simp only [firstIndex?, ha, if_true, Option.some.injEq] at hfound
      simp [← hfound]
    · simp only [firstIndex?, ha, Bool.false_eq_true, if_false, Option.map_eq_some_iff] at hfound
      obtain ⟨earlier, hearlier, rfl⟩ := hfound
      simpa using ih hearlier

theorem firstIndex?_append (as bs : List α) :
    firstIndex? p (as ++ bs) = (firstIndex? p as).or ((firstIndex? p bs).map (· + as.length)) := by
  induction as with
  | nil => simp [firstIndex?]
  | cons a as ih =>
    by_cases ha : p a = true
    · simp [firstIndex?, ha]
    · simp only [List.cons_append, firstIndex?, ha, Bool.false_eq_true, if_false, ih, List.length_cons]
      cases firstIndex? p as <;> simp [Option.map_map, Function.comp_def, Nat.add_assoc]

/-- The last element is the first one that satisfies a predicate if no earlier one does. -/
theorem firstIndex?_concat_eq_length_iff {as : List α} {a : α} :
    firstIndex? p (as ++ [a]) = some as.length ↔ (∀ b ∈ as, p b = false) ∧ p a = true := by
  rw [firstIndex?_append, ← firstIndex?_eq_none_iff]
  cases hearlier : firstIndex? p as with
  | none => by_cases ha : p a = true <;> simp [firstIndex?, ha]
  | some place =>
    have hlt := lt_length_of_firstIndex? hearlier
    simp only [Option.some_or, Option.some.injEq, reduceCtorEq, false_and, iff_false]
    omega

end FirstIndex

/-! ### The expected step that a submission is taken for -/

namespace StepContext

/-- An expected step before the answer is the one that the submission is taken for: one with its text, or, where no
expected step has its text, one that it is equivalent to. -/
def ReachesEarlier (c : StepContext) : Prop :=
  (∃ step ∈ c.problem.steps.dropLast, Text.trim step = Text.trim c.submission) ∨
    (∀ step ∈ c.problem.steps, Text.trim step ≠ Text.trim c.submission) ∧
      ∃ step ∈ c.problem.steps.dropLast, equivalent .standard c.submission step = true

instance (c : StepContext) : Decidable c.ReachesEarlier :=
  inferInstanceAs (Decidable (_ ∨ _))

theorem dropLast_append_answer (c : StepContext) : c.problem.steps.dropLast ++ [c.problem.answer] = c.problem.steps :=
  List.dropLast_concat_getLast c.problem.steps_ne_nil

theorem reachesLast_iff (c : StepContext) (hanswer : equivalent .standard c.submission c.problem.answer = true) :
    c.reachesLast = true ↔ ¬c.ReachesEarlier := by
  have hsteps := c.dropLast_append_answer
  have hlength : c.problem.steps.length - 1 = c.problem.steps.dropLast.length := by simp
  rw [reachesLast, beq_iff_eq, reachedStep?, hlength, ReachesEarlier, ← hsteps, List.dropLast_concat]
  generalize c.problem.steps.dropLast = earlier
  generalize c.problem.answer = answer at hanswer ⊢
  generalize hhasText : (fun step => Text.trim step == Text.trim c.submission) = hasText
  have htext (step : String) : hasText step = true ↔ Text.trim step = Text.trim c.submission := by simp [← hhasText]
  by_cases hearlier : ∃ step ∈ earlier, Text.trim step = Text.trim c.submission
  · -- an earlier step has the text, and the search by text stops there
    obtain ⟨step, hstep, heq⟩ := hearlier
    have hne : firstIndex? hasText earlier ≠ none := fun hnone => by
      have := firstIndex?_eq_none_iff.mp hnone step hstep
      rw [← Bool.not_eq_true, htext] at this
      exact this heq
    obtain ⟨place, hplace⟩ := Option.ne_none_iff_exists'.mp hne
    have hlt := lt_length_of_firstIndex? hplace
    have hplace' : firstIndex? hasText (earlier ++ [answer]) = some place := by
      rw [firstIndex?_append, hplace, Option.some_or]
    simp only [hplace', Option.some_or, Option.some.injEq]
    exact ⟨fun h => absurd h (by omega), fun h => absurd (.inl ⟨step, hstep, heq⟩) h⟩
  · have hnone : ∀ step ∈ earlier, hasText step = false := fun step hstep => by
      rw [← Bool.not_eq_true, htext]
      exact fun heq => hearlier ⟨step, hstep, heq⟩
    by_cases hlast : Text.trim answer = Text.trim c.submission
    · -- only the answer has the text
      have hplace : firstIndex? hasText (earlier ++ [answer]) = some earlier.length :=
        firstIndex?_concat_eq_length_iff.mpr ⟨hnone, (htext answer).mpr hlast⟩
      simp only [hplace, Option.some_or, true_iff]
      rintro (h | ⟨h, -⟩)
      · exact hearlier h
      · exact h answer (by simp) hlast
    · -- no step has the text, and equivalence decides
      have hnoText : ∀ step ∈ earlier ++ [answer], Text.trim step ≠ Text.trim c.submission := fun step hstep heq => by
        rcases List.mem_append.mp hstep with h | h
        · exact hearlier ⟨step, h, heq⟩
        · exact hlast (List.mem_singleton.mp h ▸ heq)
      have hplace : firstIndex? hasText (earlier ++ [answer]) = none := firstIndex?_eq_none_iff.mpr fun step hstep => by
        rw [← Bool.not_eq_true, htext]
        exact hnoText step hstep
      rw [hplace, Option.none_or, firstIndex?_concat_eq_length_iff]
      simp only [hanswer, and_true, hearlier, false_or, not_and, not_exists, Bool.not_eq_true]
      exact ⟨fun h _ => h, fun h => h hnoText⟩

theorem reachedStep?_lt {input : String} {steps : List String} {place : Nat}
    (hreached : reachedStep? input steps = some place) : place < steps.length := by
  rcases Option.or_eq_some_iff.mp hreached with h | ⟨-, h⟩
  · exact lt_length_of_firstIndex? h
  · exact lt_length_of_firstIndex? h

/-! ### The steps that are left -/

theorem stepsBehind_concat (steps entries : List String) (entry : String) :
    stepsBehind steps (entries ++ [entry]) =
      match reachedStep? entry steps with
      | some place => max (stepsBehind steps entries) (place + 1)
      | none => stepsBehind steps entries := by
  rw [stepsBehind, List.foldl_append]
  rfl

theorem stepsBehind_le (steps entries : List String) : stepsBehind steps entries ≤ steps.length := by
  induction entries using List.reverseRecOn with
  | nil => simp [stepsBehind]
  | append_singleton entries entry ih =>
    rw [stepsBehind_concat]
    split
    · rename_i place hreached
      exact Nat.max_le.mpr ⟨ih, reachedStep?_lt hreached⟩
    · exact ih

theorem nextSteps_eq_nil_iff (c : StepContext) :
    c.nextSteps = [] ↔ stepsBehind c.problem.steps c.accepted = c.problem.steps.length := by
  have hle := stepsBehind_le c.problem.steps c.accepted
  rw [nextSteps, List.drop_eq_nil_iff]
  omega

theorem nextSteps_advance_of_reachesLast {c : StepContext} (hlast : c.reachesLast = true) : c.advance.nextSteps = [] := by
  have hpos := List.length_pos_iff.mpr c.problem.steps_ne_nil
  have hle := stepsBehind_le c.problem.steps c.accepted
  have hreached := beq_iff_eq.mp hlast
  rw [nextSteps_eq_nil_iff, advance, stepsBehind_concat, hreached]
  change max (stepsBehind c.problem.steps c.accepted) (c.problem.steps.length - 1 + 1) = c.problem.steps.length
  omega

/-- A step before the answer leaves expected steps, unless there were none left before it. -/
theorem nextSteps_advance_of_not_reachesLast {c : StepContext} (hlast : c.reachesLast = false) :
    c.advance.nextSteps = [] ↔ c.nextSteps = [] := by
  rw [nextSteps_eq_nil_iff, nextSteps_eq_nil_iff, advance, stepsBehind_concat]
  have hle := stepsBehind_le c.problem.steps c.accepted
  cases hreached : reachedStep? c.submission c.problem.steps with
  | none => rfl
  | some place =>
    have hlt := reachedStep?_lt hreached
    have hne : place ≠ c.problem.steps.length - 1 := fun h => by simp [reachesLast, hreached, h] at hlast
    simp only
    omega

/-! ### The outcome and the solved problem -/

theorem judge_eq_assess {c : StepContext} {o : Outcome} (hjudge : c.judge = .ok o) (haccepted : o.isCorrect = true) :
    o = c.assess := by
  rw [judge] at hjudge
  split at hjudge
  · exact (Except.ok.inj hjudge).symm
  · split at hjudge
    · rw [← Except.ok.inj hjudge] at haccepted
      simp [Outcome.isCorrect, Outcome.unreadable, Verdict.isCorrect] at haccepted
    · simp at hjudge

theorem isSolved_advance (c : StepContext) : c.advance.isSolved =
    (equivalent .standard c.submission c.problem.answer && (Analysis.ofText c.submission).isSimplified) := by
  simp [isSolved, advance]

/-- The verdict on an accepted submission that is simplified. -/
theorem verdict_assess {c : StepContext} (haccepted : c.assess.isCorrect = true)
    (hsimplified : (Analysis.ofText c.submission).isSimplified = true) :
    c.assess.verdict = if c.reachesLast then .correctFinalStep else .correctIntermediateStep := by
  simp only [assess, Outcome.ofAnalysis, Outcome.isCorrect, hsimplified, if_true] at haccepted ⊢
  split at haccepted
  · simp [Verdict.isCorrect] at haccepted
  · split at haccepted
    · rename_i hprevious hexpected
      simp [hprevious, hexpected]
    · split at haccepted <;> simp [Verdict.isCorrect] at haccepted

/-- An accepted submission that solves the problem is the final step, with nothing left to do, unless it is taken for
an expected step before the answer. Then it counts as an intermediate step, and what was left to do remains so. -/
theorem judge_of_isSolved {c : StepContext} {o : Outcome} (hjudge : c.judge = .ok o) (haccepted : o.isCorrect = true)
    (hsolved : c.advance.isSolved = true) :
    (¬c.ReachesEarlier → o.verdict = .correctFinalStep ∧ c.advance.nextSteps = []) ∧
      (c.ReachesEarlier → o.verdict = .correctIntermediateStep ∧ (c.advance.nextSteps = [] ↔ c.nextSteps = [])) := by
  obtain rfl := judge_eq_assess hjudge haccepted
  rw [isSolved_advance, Bool.and_eq_true] at hsolved
  obtain ⟨hanswer, hsimplified⟩ := hsolved
  have hlast := c.reachesLast_iff hanswer
  rw [verdict_assess haccepted hsimplified]
  constructor
  · intro hearlier
    rw [if_pos (hlast.mpr hearlier)]
    exact ⟨rfl, nextSteps_advance_of_reachesLast (hlast.mpr hearlier)⟩
  · intro hearlier
    have hnot : c.reachesLast = false := by
      rw [← Bool.not_eq_true, hlast]
      exact not_not_intro hearlier
    rw [hnot]
    exact ⟨rfl, nextSteps_advance_of_not_reachesLast hnot⟩

/-! ### First submissions to library problems -/

/-- A submission right after the statement of a problem. -/
def first (p : Problem) (submission : String) : StepContext :=
  ⟨p, p.statement, [], submission⟩

theorem exists_outcome {c : StepContext} {verdict : Verdict} (h : c.judge.toOption.map (·.verdict) = some verdict) :
    ∃ o, c.judge = .ok o ∧ o.verdict = verdict := by
  cases hjudge : c.judge with
  | error failure => simp [hjudge, Except.toOption] at h
  | ok o => exact ⟨o, rfl, by simpa [hjudge, Except.toOption] using h⟩

private theorem isSome_find?_solve : (Library.find? "solve-004").isSome = true := by
  decide +kernel

set_option maxRecDepth 100000 in
/-- The answer of a library problem, typed as it stands there. -/
theorem judge_typed_answer : ∃ (p : Problem) (o : Outcome),
    Library.find? "solve-004" = some p ∧ (first p "x = 3").judge = .ok o ∧ o.isCorrect = true ∧
      (first p "x = 3").advance.isSolved = true ∧ ¬(first p "x = 3").ReachesEarlier ∧ o.verdict = .correctFinalStep ∧
      (first p "x = 3").advance.nextSteps = [] := by
  refine ⟨(Library.find? "solve-004").get isSome_find?_solve, ?_⟩
  obtain ⟨o, hjudge, hverdict⟩ : ∃ o, (first ((Library.find? "solve-004").get isSome_find?_solve) "x = 3").judge = .ok o ∧
      o.verdict = .correctFinalStep := exists_outcome (by decide +kernel)
  have haccepted : o.isCorrect = true := by rw [Outcome.isCorrect, hverdict]; rfl
  have hsolved : (first ((Library.find? "solve-004").get isSome_find?_solve) "x = 3").advance.isSolved = true := by decide +kernel
  have hearlier : ¬(first ((Library.find? "solve-004").get isSome_find?_solve) "x = 3").ReachesEarlier := by decide +kernel
  exact ⟨o, by simp, hjudge, haccepted, hsolved, hearlier, (judge_of_isSolved hjudge haccepted hsolved).1 hearlier⟩

private theorem isSome_find?_simplify : (Library.find? "simplify-001").isSome = true := by
  decide +kernel

set_option maxRecDepth 100000 in
/-- Where the step before the answer is equivalent to it, the answer in another layout is taken for that step. -/
theorem judge_answer_in_other_layout : ∃ (p : Problem) (o : Outcome),
    Library.find? "simplify-001" = some p ∧ (first p "11x-4y").judge = .ok o ∧ o.isCorrect = true ∧
      (first p "11x-4y").advance.isSolved = true ∧ o.verdict = .correctIntermediateStep ∧
      (first p "11x-4y").advance.nextSteps = ["11x - 4y"] := by
  refine ⟨(Library.find? "simplify-001").get isSome_find?_simplify, ?_⟩
  obtain ⟨o, hjudge, hverdict⟩ : ∃ o, (first ((Library.find? "simplify-001").get isSome_find?_simplify) "11x-4y").judge = .ok o ∧
      o.verdict = .correctIntermediateStep := exists_outcome (by decide +kernel)
  have haccepted : o.isCorrect = true := by rw [Outcome.isCorrect, hverdict]; rfl
  exact ⟨o, by simp, hjudge, haccepted, by decide +kernel, hverdict, by decide +kernel⟩

end StepContext

end AlgebraTutor
