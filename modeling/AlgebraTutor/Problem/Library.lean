import AlgebraTutor.Problem.Basic

/-!
# The problem library

The problems that come with the tutor.
-/

namespace AlgebraTutor.Library

/-- A problem whose difficulty is that of its number of steps. -/
def entry (id statement : String) (steps : List String) (goal : Goal) (title : String)
    (tags : List String) : ProblemDraft :=
  ⟨statement, steps, some id, some goal, some title, some (.ofStepCount steps.length), tags⟩

/-- The problems of the library in order, before their steps are checked. -/
def drafts : List ProblemDraft :=
  [entry "solve-001" "Solve for x: 4(x - 3) - (x - 5) = 14"
      ["4x - 12 - (x - 5) = 14", "4x - 12 - x + 5 = 14", "3x - 12 + 5 = 14", "3x - 7 = 14", "3x = 21", "x = 7"]
      .solveEquation "Distribute and solve" ["distributive", "linear"],
    entry "solve-002" "Solve for x: 5x + 3 = 2x + 12"
      ["5x - 2x + 3 = 12", "3x + 3 = 12", "3x = 12 - 3", "3x = 9", "x = 3"]
      .solveEquation "Variables on both sides" ["linear"],
    entry "solve-003" "Solve for x: 3x - 7 = 14"
      ["3x = 14 + 7", "3x = 21", "x = 7"]
      .solveEquation "Two-step equation" ["linear"],
    entry "solve-004" "Solve for x: 2x + 5 = 11"
      ["2x = 11 - 5", "2x = 6", "x = 3"]
      .solveEquation "Two-step equation" ["linear"],
    entry "simplify-001" "Simplify: 3(x - 2y) + 2(y + 4x)"
      ["3x - 6y + 2y + 8x", "11x - 4y"]
      .simplifyExpression "Distribute and combine" ["distributive", "like-terms"],
    entry "simplify-002" "Simplify: 4x - x - 7"
      ["3x - 7"]
      .simplifyExpression "Combine like terms" ["like-terms"],
    entry "simplify-003" "Simplify: 2x + 3 + 5x - 1"
      ["7x + 2"]
      .simplifyExpression "Combine like terms and constants" ["like-terms"],
    entry "solve-005" "Solve for x: 6x - 9 = 3x + 6"
      ["6x - 3x = 6 + 9", "3x = 15", "x = 5"]
      .solveEquation "Variables on both sides" ["linear"],
    entry "solve-006" "Solve for x: 2(x + 3) = 14"
      ["2x + 6 = 14", "2x = 14 - 6", "2x = 8", "x = 4"]
      .solveEquation "Distribute and solve" ["distributive", "linear"],
    entry "simplify-004" "Simplify: 5(2x + 1) - 3x"
      ["10x + 5 - 3x", "7x + 5"]
      .simplifyExpression "Distribute and combine" ["distributive", "like-terms"]]

/-- The problems of the library in order. -/
def problems : List Problem :=
  drafts.filterMap fun draft =>
    match Problem.ofDraft draft with
    | .ok p => some p
    | .error _ => none

/-- The problem with an identifier. -/
def find? (id : String) : Option Problem :=
  problems.find? fun p => p.id == some id

/-- The problems with a goal, in order. -/
def ofGoal (goal : Goal) : List Problem :=
  problems.filter fun p => p.goal == some goal

end AlgebraTutor.Library
