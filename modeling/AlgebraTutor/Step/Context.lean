import AlgebraTutor.Equivalence
import AlgebraTutor.Problem.Basic

/-!
# The context of a step

A problem, what has been accepted so far, and what is submitted now. The history begins with the statement of
the problem. Of the expected steps, the one that a submission reaches is found by its text first, and by
equivalence second.
-/

namespace AlgebraTutor

/-- A submission in its place; the history begins with the problem statement. -/
structure StepContext where
  problem : Problem
  start : String
  accepted : List String
  submission : String

namespace StepContext

/-- The whole history. -/
def history (c : StepContext) : List String :=
  c.start :: c.accepted

/-- The step before the submission. -/
def previous (c : StepContext) : String :=
  c.history.getLast (List.cons_ne_nil _ _)

/-- A submission after a history. An empty history is read as the statement alone; any other one has to begin
with the statement, up to blanks around it. -/
def ofHistory (problem : Problem) (history : List String) (submission : String) : Answer StepContext :=
  match history with
  | [] => .ok ⟨problem, problem.statement, [], submission⟩
  | start :: accepted =>
    if Text.trim start = Text.trim problem.statement then .ok ⟨problem, start, accepted, submission⟩
    else .error .foreignHistory

/-- The context after the submission has been accepted. -/
def advance (c : StepContext) : StepContext :=
  { c with accepted := c.accepted ++ [c.submission], submission := "" }

end StepContext

/-- The place of the first element that satisfies `p`. -/
def firstIndex? {α : Type} (p : α → Bool) : List α → Option Nat
  | [] => none
  | a :: as => if p a then some 0 else (firstIndex? p as).map (· + 1)

/-- The place of the expected step that an input reaches: the first with its text, or else the first that it is
equivalent to. -/
def reachedStep? (input : String) (steps : List String) : Option Nat :=
  (firstIndex? (fun step => Text.trim step == Text.trim input) steps).or
    (firstIndex? (fun step => equivalent .standard input step) steps)

/-- The number of expected steps that are behind the furthest entry of a history. -/
def stepsBehind (steps : List String) (entries : List String) : Nat :=
  entries.foldl
    (fun n entry => match reachedStep? entry steps with
      | some place => max n (place + 1)
      | none => n)
    0

/-- The expected steps after the furthest one that has been reached. -/
def StepContext.nextSteps (c : StepContext) : List String :=
  c.problem.steps.drop (stepsBehind c.problem.steps c.accepted)

end AlgebraTutor
