import AlgebraTutor.Pattern.Arrangement
import AlgebraTutor.Pattern.Basic
import AlgebraTutor.Pattern.Decimal

/-!
# The analysis of an input

What could still be simplified in an expression or in the sides of an equation. A text that cannot be read has
an empty analysis, which is not one of a simplified text.
-/

namespace AlgebraTutor

/-- What is left to do in an input. -/
structure Analysis where
  isSimplified : Bool
  hasOpenWork : Bool
  patterns : List Pattern

namespace Analysis

/-- The analysis of what cannot be read. -/
def empty : Analysis := ⟨false, false, []⟩

/-- The analysis with the given patterns and the given flag. -/
def ofFindings (patterns : List Pattern) (unsimplified : Bool) : Analysis :=
  ⟨patterns.isEmpty && !unsimplified, unsimplified, patterns⟩

/-- The kinds of the patterns, in order. -/
def kinds (a : Analysis) : List Pattern.Kind :=
  a.patterns.map (·.kind)

/-- The suggestions to a learner, in order. -/
def feedback (a : Analysis) : List String :=
  a.patterns.map fun p => p.kind.introduction ++ p.suggestion

/-- The patterns of several texts, and whether one of them has operations left over. -/
def findingsOf (unsimplified : Bool) : List String → Answer (List Pattern × Bool)
  | [] => .ok ([], unsimplified)
  | side :: rest => do
    let t ← Tree.ofText side
    let patterns ← t.patterns
    let flag ← if unsimplified then .ok true else t.hasOpenWork
    let (later, flag) ← findingsOf flag rest
    return (patterns ++ later, flag)

/-- The analysis of a text, if it can be read and simplified. -/
def ofText? (text : String) : Answer Analysis := do
  let p ← Input.ofText text
  let (patterns, unsimplified) ← findingsOf false p.sides
  return ofFindings patterns unsimplified

/-- The analysis of a text. -/
def ofText (text : String) : Analysis :=
  match ofText? text with
  | .ok a => a
  | .error _ => empty

end Analysis

/-- Is a side written as the tutor would write it, up to arrangement? The decimals of a learner are as good as
the fractions of the tutor. -/
def isSimplifiedSide (side : String) : Answer Bool := do
  let t ← Tree.ofText side
  let written ← t.chars
  let simple ← t.simplify
  let answer ← simple.chars
  if Text.sameArrangement written answer then return true
  else if !t.hasFraction then return false
  else
    let decimal ← simple.withDecimals
    let answer ← decimal.chars
    return Text.sameArrangement written answer

/-- Are all sides simplified? -/
def areSimplifiedSides : List String → Answer Bool
  | [] => .ok true
  | side :: rest => do
    if ← isSimplifiedSide side then areSimplifiedSides rest else return false

/-- Is a text, in every side, written as the tutor would write it, up to arrangement? -/
def matchesSimplifiedForm (text : String) : Bool :=
  match (do
    let p ← Input.ofText text
    areSimplifiedSides p.sides : Answer Bool) with
  | .ok verdict => verdict
  | .error _ => false

end AlgebraTutor
