import AlgebraTutor.Pattern.Analysis
import AlgebraTutor.Step.Context

/-!
# Judging a step

A submission is compared with the expected steps and with the step before it, and judged by one of six
outcomes.
-/

namespace AlgebraTutor

/-- What is said of a submission. -/
inductive Verdict
  | correctFinalStep
  | correctIntermediateStep
  | correctButNotSimplified
  | validButNoProgress
  | equivalenceFailure
  | parsingError
deriving Repr, DecidableEq

/-- The name of a verdict. -/
def Verdict.name : Verdict → String
  | .correctFinalStep => "CORRECT_FINAL_STEP"
  | .correctIntermediateStep => "CORRECT_INTERMEDIATE_STEP"
  | .correctButNotSimplified => "CORRECT_BUT_NOT_SIMPLIFIED"
  | .validButNoProgress => "VALID_BUT_NO_PROGRESS"
  | .equivalenceFailure => "EQUIVALENCE_FAILURE"
  | .parsingError => "PARSING_ERROR"

/-- Is the submission accepted? -/
def Verdict.isCorrect : Verdict → Bool
  | .correctFinalStep | .correctIntermediateStep | .correctButNotSimplified => true
  | _ => false

/-- The outcome of a submission with what it is based on. -/
structure Outcome where
  verdict : Verdict
  errorMessage : Option String
  analysis : Option Analysis
  feedback : List String
  kinds : List Pattern.Kind

namespace Outcome

/-- Is the submission accepted? -/
def isCorrect (o : Outcome) : Bool :=
  o.verdict.isCorrect

/-- The outcome of what cannot be read. -/
def unreadable (message : Option String) : Outcome :=
  ⟨.parsingError, message, none, [], []⟩

/-- The outcome of what has been analysed. -/
def ofAnalysis (verdict : Verdict) (a : Analysis) : Outcome :=
  ⟨verdict, none, some a, a.feedback, a.kinds⟩

end Outcome

namespace StepContext

/-- Is the submission equivalent to one of the expected steps? -/
def isExpected (c : StepContext) : Bool :=
  c.problem.steps.any fun step => equivalent .standard c.submission step

/-- Does the submission repeat the step before it, in other words but with no less left to do? -/
def repeatsPrevious (c : StepContext) (a : Analysis) : Bool :=
  equivalent .standard c.submission c.previous &&
    (Analysis.ofText c.previous).patterns.length ≤ a.patterns.length

/-- Does the submission reach the last of the expected steps? -/
def reachesLast (c : StepContext) : Bool :=
  reachedStep? c.submission c.problem.steps == some (c.problem.steps.length - 1)

/-- The outcome of a submission that can be read. -/
def assess (c : StepContext) : Outcome :=
  let a := Analysis.ofText c.submission
  let verdict : Verdict :=
    if Text.trim c.submission = Text.trim c.previous then .validButNoProgress
    else if c.isExpected then
      if c.reachesLast then
        if a.isSimplified then .correctFinalStep else .correctButNotSimplified
      else .correctIntermediateStep
    else if c.repeatsPrevious a then .validButNoProgress
    else .equivalenceFailure
  .ofAnalysis verdict a

/-- The outcome of a submission. It fails only if reading the submission fails in a way that is no fault of its
form. -/
def judge (c : StepContext) : Answer Outcome :=
  match Input.check c.submission with
  | .ok _ => .ok c.assess
  | .error failure =>
    if failure.isInputError then .ok (.unreadable failure.message?) else .error failure

/-- Is the last accepted step the answer, fully simplified? Before a step has been accepted it is not. -/
def isSolved (c : StepContext) : Bool :=
  match c.accepted.getLast? with
  | none => false
  | some last =>
    equivalent .standard last c.problem.answer && (Analysis.ofText last).isSimplified

end StepContext

end AlgebraTutor
