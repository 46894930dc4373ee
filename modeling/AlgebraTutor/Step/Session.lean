import AlgebraTutor.Step.Outcome

/-!
# A session

A learner opens a problem and submits one input after another. What is accepted becomes the next entry of the history;
anything else leaves the history as it was.
-/

namespace AlgebraTutor

namespace StepContext

/-- The context with another submission. -/
def submitting (c : StepContext) (input : String) : StepContext :=
  { c with submission := input }

/-- Does what has been judged advance the history? -/
def admits : Answer Outcome → Bool
  | .ok o => o.isCorrect
  | .error _ => false

/-- Is the submission accepted? -/
def isAccepted (c : StepContext) : Bool :=
  admits c.judge

/-- The context after its submission has been judged. -/
def afterJudging (c : StepContext) (judged : Answer Outcome) : StepContext :=
  if admits judged then c.advance else c.submitting ""

/-- The context after an input has been submitted. -/
def submit (c : StepContext) (input : String) : StepContext :=
  (c.submitting input).afterJudging (c.submitting input).judge

end StepContext

namespace Problem

/-- The problem before anything has been submitted. -/
def opened (p : Problem) : StepContext :=
  ⟨p, p.statement, [], ""⟩

/-- The problem after inputs have been submitted one after another. -/
def after (p : Problem) (inputs : List String) : StepContext :=
  inputs.foldl StepContext.submit p.opened

end Problem

end AlgebraTutor
