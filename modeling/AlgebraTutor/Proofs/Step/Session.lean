import Mathlib.Data.List.Chain
import AlgebraTutor.Proofs.Step.Accepted

/-!
# What a session keeps

Learners may skip steps, go back to earlier ones, repeat themselves and type what is wrong. The history stays orderly
through all of it, and the list of the steps that are left never grows back.
-/

namespace AlgebraTutor

namespace StepContext

variable {c : StepContext} {input : String}

/-! ### One submission -/

theorem submit_of_isAccepted (haccepted : (c.submitting input).isAccepted = true) :
    c.submit input = (c.submitting input).advance :=
  if_pos haccepted

/-- All that a submission can do. -/
theorem submit_cases (c : StepContext) (input : String) :
    ((c.submitting input).isAccepted = true ∧ c.submit input = (c.submitting input).advance) ∨
      ((c.submitting input).isAccepted = false ∧ c.submit input = c.submitting "") := by
  cases haccepted : (c.submitting input).isAccepted with
  | true => exact .inl ⟨rfl, submit_of_isAccepted haccepted⟩
  | false => exact .inr ⟨rfl, if_neg (ne_true_of_eq_false haccepted)⟩

@[simp] theorem problem_submit (c : StepContext) (input : String) : (c.submit input).problem = c.problem := by
  rcases c.submit_cases input with ⟨-, hsubmit⟩ | ⟨-, hsubmit⟩ <;> rw [hsubmit] <;> rfl

theorem history_submit (haccepted : (c.submitting input).isAccepted = true) :
    (c.submit input).history = c.history ++ [input] := by
  rw [submit_of_isAccepted haccepted]
  rfl

/-- A history that begins with the statement and goes on with entries that can be read and are expected, no two of them in
a row with one text. -/
structure IsOrderly (c : StepContext) : Prop where
  start_eq : c.start = c.problem.statement
  readable : ∀ entry ∈ c.accepted, ∃ parsed, Input.check entry = .ok parsed
  expected : ∀ entry ∈ c.accepted, ∃ step ∈ c.problem.steps, equivalent .standard entry step = true
  moving : c.history.IsChain fun earlier later => Text.trim later ≠ Text.trim earlier

theorem isOrderly_opened (p : Problem) : p.opened.IsOrderly where
  start_eq := rfl
  readable := by simp [Problem.opened]
  expected := by simp [Problem.opened]
  moving := .singleton _

theorem IsOrderly.submit (hc : c.IsOrderly) (input : String) : (c.submit input).IsOrderly := by
  rcases c.submit_cases input with ⟨haccepted, hsubmit⟩ | ⟨-, hsubmit⟩ <;> rw [hsubmit]
  · obtain ⟨hreadable, hnew, hexpected⟩ := (isAccepted_iff _).mp haccepted
    refine ⟨hc.start_eq, fun entry hentry => ?_, fun entry hentry => ?_, ?_⟩
    · rcases List.mem_append.mp hentry with hold | hlast
      · exact hc.readable entry hold
      · exact List.mem_singleton.mp hlast ▸ hreadable
    · rcases List.mem_append.mp hentry with hold | hlast
      · exact hc.expected entry hold
      · exact List.mem_singleton.mp hlast ▸ hexpected
    · -- what the submission was compared with is the last entry of the history
      show (c.history ++ [input]).IsChain _
      refine hc.moving.append (.singleton _) fun earlier hearlier later hlater => ?_
      have hlast : c.previous = earlier := Option.some.inj ((List.getLast?_eq_some_getLast _).symm.trans hearlier)
      obtain rfl : input = later := Option.some.inj hlater
      exact hlast ▸ hnew
  · exact ⟨hc.start_eq, hc.readable, hc.expected, hc.moving⟩

/-! ### The steps that are left -/

theorem stepsBehind_le_concat (steps entries : List String) (entry : String) :
    stepsBehind steps entries ≤ stepsBehind steps (entries ++ [entry]) := by
  rw [stepsBehind_concat]
  split
  · exact Nat.le_max_left _ _
  · exact Nat.le_refl _

theorem nextSteps_suffix_steps (c : StepContext) : c.nextSteps <:+ c.problem.steps :=
  List.drop_suffix _ _

theorem nextSteps_submit_suffix (c : StepContext) (input : String) : (c.submit input).nextSteps <:+ c.nextSteps := by
  rcases c.submit_cases input with ⟨-, hsubmit⟩ | ⟨-, hsubmit⟩ <;> rw [hsubmit]
  · exact List.drop_suffix_drop_left _ (stepsBehind_le_concat _ _ _)
  · exact List.suffix_refl _

/-- An accepted submission is taken for an expected step, and that step and those before it are left no more. -/
theorem nextSteps_submit_of_isAccepted (haccepted : (c.submitting input).isAccepted = true) :
    ∃ place, reachedStep? input c.problem.steps = some place ∧
      (c.submit input).nextSteps <:+ c.problem.steps.drop (place + 1) := by
  obtain ⟨-, -, hexpected⟩ := (isAccepted_iff _).mp haccepted
  obtain ⟨place, hplace⟩ := exists_reachedStep? hexpected
  refine ⟨place, hplace, ?_⟩
  have hbehind : place + 1 ≤ stepsBehind c.problem.steps (c.accepted ++ [input]) := by
    rw [stepsBehind_concat, show reachedStep? input c.problem.steps = some place from hplace]
    exact Nat.le_max_right _ _
  rw [submit_of_isAccepted haccepted]
  exact List.drop_suffix_drop_left _ hbehind

theorem nextSteps_foldl_suffix (c : StepContext) (inputs : List String) :
    (inputs.foldl submit c).nextSteps <:+ c.nextSteps := by
  induction inputs generalizing c with
  | nil => exact List.suffix_refl _
  | cons input inputs ih => exact (ih (c.submit input)).trans (c.nextSteps_submit_suffix input)

end StepContext

/-! ### Any number of submissions -/

namespace Problem

theorem after_append (p : Problem) (earlier later : List String) :
    p.after (earlier ++ later) = later.foldl StepContext.submit (p.after earlier) :=
  List.foldl_append

theorem after_concat (p : Problem) (inputs : List String) (input : String) :
    p.after (inputs ++ [input]) = (p.after inputs).submit input :=
  p.after_append inputs [input]

@[simp] theorem problem_after (p : Problem) (inputs : List String) : (p.after inputs).problem = p := by
  induction inputs using List.reverseRecOn with
  | nil => rfl
  | append_singleton inputs input ih => rw [after_concat, StepContext.problem_submit, ih]

theorem isOrderly_after (p : Problem) (inputs : List String) : (p.after inputs).IsOrderly := by
  induction inputs using List.reverseRecOn with
  | nil => exact StepContext.isOrderly_opened p
  | append_singleton inputs input ih => exact after_concat p inputs input ▸ ih.submit input

/-- Whatever is submitted, the history stays orderly, and what is left of the expected steps is a final segment of them and
of what was left at any time before. Right after a submission has been accepted, the expected step that it is taken for is
behind. -/
theorem after_invariant (p : Problem) (inputs : List String) :
    (p.after inputs).problem = p ∧ (p.after inputs).IsOrderly ∧ (p.after inputs).nextSteps <:+ p.steps ∧
      (∀ earlier, earlier <+: inputs → (p.after inputs).nextSteps <:+ (p.after earlier).nextSteps) ∧
      ∀ input, ((p.after inputs).submitting input).isAccepted = true →
        (p.after (inputs ++ [input])).history = (p.after inputs).history ++ [input] ∧
          ∃ place, reachedStep? input p.steps = some place ∧
            (p.after (inputs ++ [input])).nextSteps <:+ p.steps.drop (place + 1) := by
  refine ⟨problem_after p inputs, isOrderly_after p inputs, ?_, ?_, ?_⟩
  · have hsuffix := (p.after inputs).nextSteps_suffix_steps
    rwa [problem_after] at hsuffix
  · rintro earlier ⟨later, rfl⟩
    rw [after_append]
    exact StepContext.nextSteps_foldl_suffix _ later
  · intro input haccepted
    obtain ⟨place, hplace, hsuffix⟩ := StepContext.nextSteps_submit_of_isAccepted haccepted
    rw [problem_after] at hplace hsuffix
    rw [after_concat]
    exact ⟨StepContext.history_submit haccepted, place, hplace, hsuffix⟩

set_option maxRecDepth 100000 in
/-- A learner skips the first step of a library problem, errs, and goes back to the first step: it is accepted, and the list
of what is left stays as it was. -/
theorem after_going_back :
    ((Library.twoStep.after ["2x = 6", "2x = "]).submitting "2x = 11 - 5").isAccepted = true ∧
      (Library.twoStep.after ["2x = 6", "2x = ", "2x = 11 - 5"]).nextSteps = ["x = 3"] ∧
      (Library.twoStep.after ["2x = 6", "2x = ", "2x = 11 - 5"]).nextSteps <:+ (Library.twoStep.after ["2x = 6"]).nextSteps ∧
      (Library.twoStep.after ["2x = 6", "2x = ", "2x = 11 - 5"]).history =
        (Library.twoStep.after ["2x = 6", "2x = "]).history ++ ["2x = 11 - 5"] := by
  have haccepted : ((Library.twoStep.after ["2x = 6", "2x = "]).submitting "2x = 11 - 5").isAccepted = true := by
    decide +kernel
  refine ⟨haccepted, by decide +kernel, ?_, ?_⟩
  · obtain ⟨-, -, -, hearlier, -⟩ := after_invariant Library.twoStep ["2x = 6", "2x = ", "2x = 11 - 5"]
    exact hearlier ["2x = 6"] ⟨["2x = ", "2x = 11 - 5"], rfl⟩
  · obtain ⟨-, -, -, -, hnext⟩ := after_invariant Library.twoStep ["2x = 6", "2x = "]
    exact (hnext _ haccepted).1

end Problem

end AlgebraTutor
