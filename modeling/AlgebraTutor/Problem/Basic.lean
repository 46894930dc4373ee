import AlgebraTutor.Error
import AlgebraTutor.Text.Blank

/-!
# Problems

A problem states what is to be solved or simplified and lists the steps that are expected, the last of which is
the answer. It has at least one step, and none of them is blank.
-/

namespace AlgebraTutor

/-- What a problem asks for. -/
inductive Goal
  | solveEquation
  | simplifyExpression
deriving Repr, DecidableEq

/-- The name of a goal. -/
def Goal.name : Goal → String
  | .solveEquation => "SOLVE_EQUATION"
  | .simplifyExpression => "SIMPLIFY_EXPRESSION"

/-- The goal with a name. -/
def Goal.ofName? (s : String) : Option Goal :=
  if s = "SOLVE_EQUATION" then some .solveEquation
  else if s = "SIMPLIFY_EXPRESSION" then some .simplifyExpression
  else none

/-- How long a problem is. -/
inductive Difficulty
  | easy
  | medium
  | hard
deriving Repr, DecidableEq

/-- The name of a difficulty. -/
def Difficulty.name : Difficulty → String
  | .easy => "Easy"
  | .medium => "Medium"
  | .hard => "Hard"

/-- The difficulty with a name. -/
def Difficulty.ofName? (s : String) : Option Difficulty :=
  if s = "Easy" then some .easy
  else if s = "Medium" then some .medium
  else if s = "Hard" then some .hard
  else none

/-- Up to two steps are easy, and up to four of medium difficulty. -/
def Difficulty.ofStepCount (n : Nat) : Difficulty :=
  if n ≤ 2 then .easy else if n ≤ 4 then .medium else .hard

/-- What a problem is made of, before its steps are trimmed and checked. -/
structure ProblemDraft where
  statement : String
  steps : List String
  id : Option String
  goal : Option Goal
  title : Option String
  difficulty : Option Difficulty
  tags : List String

/-- A problem with its expected steps, trimmed. -/
structure Problem extends ProblemDraft where
  steps_ne_nil : steps ≠ []
  steps_trimmed : ∀ step ∈ steps, step ≠ ""

namespace Problem

/-- Trim and check the steps of a problem. -/
def ofDraft (draft : ProblemDraft) : Answer Problem :=
  let steps := draft.steps.map Text.trim
  if h : steps ≠ [] ∧ ∀ step ∈ steps, step ≠ "" then
    .ok { draft with steps := steps, steps_ne_nil := h.1, steps_trimmed := h.2 }
  else .error .missingSteps

/-- The answer of a problem. -/
def answer (p : Problem) : String :=
  p.steps.getLast p.steps_ne_nil

/-- The difficulty that the number of steps gives. -/
def difficultyOfSteps (p : Problem) : Difficulty :=
  .ofStepCount p.steps.length

end Problem

end AlgebraTutor
