import AlgebraTutor.Pattern.Analysis

/-!
# Hints

What a learner is told about an expression.
-/

namespace AlgebraTutor

/-- The hints that an analysis gives. -/
def Analysis.hints (a : Analysis) : List String :=
  (if a.patterns.isEmpty && a.hasOpenWork then
      ["Look for opportunities to simplify coefficients or clean up the expression."] else []) ++
    a.feedback ++
    (if a.isSimplified then
      ["This expression appears to be fully simplified. Check if it matches the expected form."] else [])

end AlgebraTutor
