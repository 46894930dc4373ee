import AlgebraTutor.Proofs.Step.Session

/-!
# The expected path

A problem whose expected steps are all different and can all be compared is solved by submitting these steps in order. The
steps may be equivalent to each other in any way: each is found by its own text before equivalence is asked.
-/

namespace AlgebraTutor

theorem firstIndex?_eq_some {α : Type} {p : α → Bool} {as : List α} {place : Nat} (hlt : place < as.length)
    (hplace : p as[place] = true) (hearlier : ∀ (earlier : Nat) (h : earlier < place), p as[earlier] = false) :
    firstIndex? p as = some place := by
  induction as generalizing place with
  | nil => simp at hlt
  | cons a as ih =>
    cases place with
    | zero => simp [firstIndex?, show p a = true from hplace]
    | succ place =>
      have ha : p a = false := hearlier 0 (Nat.succ_pos _)
      have hrest := ih (Nat.lt_of_succ_lt_succ hlt) hplace fun earlier h => hearlier (earlier + 1) (Nat.succ_lt_succ h)
      simp [firstIndex?, ha, hrest]

namespace Problem

theorem trim_of_mem_steps {draft : ProblemDraft} {p : Problem} (hp : ofDraft draft = .ok p) {step : String}
    (hstep : step ∈ p.steps) : Text.trim step = step := by
  rw [ofDraft] at hp
  split_ifs at hp
  obtain rfl := Except.ok.inj hp
  obtain ⟨written, -, rfl⟩ := List.mem_map.mp hstep
  exact Text.trim_trim written

/-- The expected steps can be submitted one after another: they are trimmed, all different, also from the statement, and
each of them can be read and compared. -/
structure IsWalkable (p : Problem) : Prop where
  trimmed : ∀ step ∈ p.steps, Text.trim step = step
  distinct : p.steps.Nodup
  fresh : Text.trim p.statement ∉ p.steps
  readable : ∀ step ∈ p.steps, ∃ parsed, Input.check step = .ok parsed
  comparable : ∀ step ∈ p.steps, IsComparable .standard step

namespace IsWalkable

variable {p : Problem} (hp : p.IsWalkable) {place : Nat}

include hp

/-- Each step is taken for itself. -/
theorem reachedStep?_getElem (hlt : place < p.steps.length) : reachedStep? p.steps[place] p.steps = some place := by
  have htext : firstIndex? (fun step => Text.trim step == Text.trim p.steps[place]) p.steps = some place := by
    refine firstIndex?_eq_some hlt (beq_self_eq_true _) fun earlier hearlier => ?_
    rw [hp.trimmed _ (List.getElem_mem _), hp.trimmed _ (List.getElem_mem _), beq_eq_false_iff_ne]
    intro heq
    have := hp.distinct.getElem_inj_iff.mp heq
    omega
  -- a hit by the text settles it, so the steps that are equivalent to this one are not asked
  rw [reachedStep?, htext, Option.some_or]

theorem stepsBehind_take (hle : place ≤ p.steps.length) : stepsBehind p.steps (p.steps.take place) = place := by
  induction place with
  | zero => rfl
  | succ place ih =>
    rw [← List.take_append_getElem hle, StepContext.stepsBehind_concat, hp.reachedStep?_getElem hle,
      ih (Nat.le_of_succ_le hle)]
    exact Nat.max_eq_right (Nat.le_succ place)

/-- No entry of the history has the text of the step that comes next. -/
theorem trim_getElem_ne (hlt : place < p.steps.length) {entry : String}
    (hentry : entry ∈ p.statement :: p.steps.take place) : Text.trim p.steps[place] ≠ Text.trim entry := by
  rw [hp.trimmed _ (List.getElem_mem _)]
  rcases List.mem_cons.mp hentry with rfl | htaken
  · intro heq
    exact hp.fresh (heq ▸ List.getElem_mem hlt)
  · obtain ⟨earlier, hearlier, rfl⟩ := List.mem_take_iff_getElem.mp htaken
    rw [hp.trimmed _ (List.getElem_mem _)]
    intro heq
    have := hp.distinct.getElem_inj_iff.mp heq
    omega

/-! ### The walk -/

theorem isExpected_getElem (hlt : place < p.steps.length) :
    ∃ step ∈ p.steps, equivalent .standard p.steps[place] step = true :=
  ⟨_, List.getElem_mem hlt, (hp.comparable _ (List.getElem_mem hlt)).equivalent rfl⟩

theorem isAccepted_getElem (hlt : place < p.steps.length) :
    (StepContext.mk p p.statement (p.steps.take place) p.steps[place]).isAccepted = true :=
  (StepContext.isAccepted_iff _).mpr ⟨hp.readable _ (List.getElem_mem hlt),
    hp.trim_getElem_ne hlt (List.getLast_mem _), hp.isExpected_getElem hlt⟩

theorem after_take (hle : place ≤ p.steps.length) :
    p.after (p.steps.take place) = ⟨p, p.statement, p.steps.take place, ""⟩ := by
  induction place with
  | zero => rfl
  | succ place ih =>
    have haccepted := hp.isAccepted_getElem hle
    rw [← List.take_append_getElem hle, after_concat, ih (Nat.le_of_succ_le hle)]
    exact StepContext.submit_of_isAccepted haccepted

/-- The outcome of the next step. -/
theorem verdict_getElem (hanswer : (Analysis.ofText p.answer).isSimplified = true) (hlt : place < p.steps.length) : ∃ o,
    (StepContext.mk p p.statement (p.steps.take place) p.steps[place]).judge = .ok o ∧
      o.verdict = if place + 1 = p.steps.length then .correctFinalStep else .correctIntermediateStep := by
  obtain ⟨⟨parsed, hparsed⟩, hnew, hexpected⟩ := (StepContext.isAccepted_iff _).mp (hp.isAccepted_getElem hlt)
  refine ⟨_, StepContext.judge_of_check hparsed, ?_⟩
  rw [StepContext.verdict_assess_of_isExpected hnew ((StepContext.isExpected_iff _).mpr hexpected)]
  have hlast : (StepContext.mk p p.statement (p.steps.take place) p.steps[place]).reachesLast = true ↔
      place + 1 = p.steps.length := by
    rw [StepContext.reachesLast, beq_iff_eq]
    show reachedStep? p.steps[place] p.steps = some (p.steps.length - 1) ↔ _
    rw [hp.reachedStep?_getElem hlt, Option.some.injEq]
    omega
  by_cases hend : place + 1 = p.steps.length
  · have hself : p.steps[place] = p.answer := by
      rw [answer, List.getLast_eq_getElem]
      simp only [show p.steps.length - 1 = place by omega]
    rw [if_pos (hlast.mpr hend), if_pos hend]
    show (if (Analysis.ofText p.steps[place]).isSimplified then _ else _) = _
    rw [hself, if_pos hanswer]
  · rw [if_neg (mt hlast.mp hend), if_neg hend]

theorem isSolved_after_steps (hanswer : (Analysis.ofText p.answer).isSimplified = true) :
    (p.after p.steps).isSolved = true := by
  have hafter := hp.after_take (Nat.le_refl p.steps.length)
  rw [List.take_length] at hafter
  have hlast : (StepContext.mk p p.statement p.steps "").accepted.getLast? = some p.answer :=
    List.getLast?_eq_some_getLast p.steps_ne_nil
  have hself := (hp.comparable _ (List.getLast_mem p.steps_ne_nil)).equivalent rfl
  rw [hafter, StepContext.isSolved, hlast]
  exact Bool.and_eq_true_iff.mpr ⟨hself, hanswer⟩

end IsWalkable

/-- The expected path can be walked. If the steps are all different, also from the statement, pass the check and, where they
are equations, have canonical trees, and if the last one is simplified, then each step is accepted in its turn, the last
with the final verdict and every other as an intermediate step; what is left after each step are the steps that follow it;
and in the end the problem is solved. -/
theorem solved_by_steps {draft : ProblemDraft} {p : Problem} (hp : ofDraft draft = .ok p) (hdistinct : p.steps.Nodup)
    (hfresh : Text.trim p.statement ∉ p.steps)
    (hreadable : ∀ step ∈ p.steps, ∃ parsed, Input.check step = .ok parsed ∧
      (parsed.isEquation = true → ∃ t, canonicalTree .standard step = .ok t))
    (hanswer : (Analysis.ofText p.answer).isSimplified = true) :
    (∀ (place : Nat) (hlt : place < p.steps.length),
      (∃ o, ((p.after (p.steps.take place)).submitting p.steps[place]).judge = .ok o ∧ o.isCorrect = true ∧
        o.verdict = if place + 1 = p.steps.length then .correctFinalStep else .correctIntermediateStep) ∧
      (p.after (p.steps.take (place + 1))).history = p.statement :: p.steps.take (place + 1) ∧
      (p.after (p.steps.take (place + 1))).nextSteps = p.steps.drop (place + 1)) ∧
    (p.after p.steps).isSolved = true := by
  have hwalk : p.IsWalkable :=
    { trimmed := fun _ hstep => trim_of_mem_steps hp hstep
      distinct := hdistinct
      fresh := hfresh
      readable := fun step hstep => (hreadable step hstep).imp fun _ h => h.1
      comparable := fun step hstep => by
        obtain ⟨parsed, hparsed, hcanonical⟩ := hreadable step hstep
        exact isComparable_of_check hparsed hcanonical }
  refine ⟨fun place hlt => ⟨?_, ?_, ?_⟩, hwalk.isSolved_after_steps hanswer⟩
  · obtain ⟨o, hjudge, hverdict⟩ := hwalk.verdict_getElem hanswer hlt
    rw [hwalk.after_take (Nat.le_of_lt hlt)]
    refine ⟨o, hjudge, ?_, hverdict⟩
    rw [Outcome.isCorrect, hverdict]
    split_ifs <;> rfl
  · rw [hwalk.after_take hlt]
    rfl
  · rw [hwalk.after_take hlt]
    exact congrArg p.steps.drop (hwalk.stepsBehind_take hlt)

set_option maxRecDepth 100000 in
/-- A linear equation whose first two steps are equivalent to the answer. -/
theorem solved_by_steps_linear : ∃ p : Problem,
    ofDraft ⟨"Solve for x: 2x + 5 = 11", ["2x = 11 - 5", " 2x = 6", "x = 3 "], none, none, none, none, []⟩ = .ok p ∧
      p.steps = ["2x = 11 - 5", "2x = 6", "x = 3"] ∧ (p.after ["2x = 11 - 5", "2x = 6"]).nextSteps = ["x = 3"] ∧
      (p.after ["2x = 11 - 5", "2x = 6", "x = 3"]).isSolved = true := by
  have hparts : (fun p : Problem => (p.statement, p.steps)) <$>
      ofDraft ⟨"Solve for x: 2x + 5 = 11", ["2x = 11 - 5", " 2x = 6", "x = 3 "], none, none, none, none, []⟩ =
        .ok ("Solve for x: 2x + 5 = 11", ["2x = 11 - 5", "2x = 6", "x = 3"]) := by decide +kernel
  obtain ⟨p, hp, heq⟩ := Answer.map_eq_ok_iff.mp hparts
  obtain ⟨hstatement, hsteps⟩ := Prod.mk.inj heq
  have hreadable : ∀ step ∈ p.steps, ∃ parsed, Input.check step = .ok parsed ∧
      (parsed.isEquation = true → ∃ t, canonicalTree .standard step = .ok t) := by
    intro step hstep
    have hboth : ∀ step ∈ ["2x = 11 - 5", "2x = 6", "x = 3"],
        ((fun _ => ()) <$> Input.check step : Answer Unit) = .ok () ∧
          ((fun _ => ()) <$> canonicalTree .standard step : Answer Unit) = .ok () := by decide +kernel
    obtain ⟨hcheck, hcanonical⟩ := hboth step (hsteps ▸ hstep)
    obtain ⟨parsed, hparsed, -⟩ := Answer.map_eq_ok_iff.mp hcheck
    obtain ⟨t, ht, -⟩ := Answer.map_eq_ok_iff.mp hcanonical
    exact ⟨parsed, hparsed, fun _ => ⟨t, ht⟩⟩
  have hanswer : (Analysis.ofText p.answer).isSimplified = true := by
    rw [show p.answer = "x = 3" by simp [answer, hsteps]]
    decide +kernel
  have hwalk := solved_by_steps hp (by rw [hsteps]; decide) (by rw [hsteps, hstatement]; decide +kernel) hreadable hanswer
  have hnext := (hwalk.1 1 (by rw [hsteps]; decide)).2.2
  have hsolved := hwalk.2
  rw [hsteps] at hnext hsolved
  exact ⟨p, hp, hsteps, hnext, hsolved⟩

end Problem

end AlgebraTutor
