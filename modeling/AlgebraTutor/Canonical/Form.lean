import AlgebraTutor.Canonical.Coefficient
import AlgebraTutor.Canonical.Distribute
import AlgebraTutor.Canonical.TermOrder
import AlgebraTutor.Config
import AlgebraTutor.Input
import AlgebraTutor.Tree.Simplify

/-!
# Canonical forms

One tree for every expression, and for every equation, taken as the difference of its sides: equal inputs in
different words have equal canonical trees. After the first simplification come further stages; if one of them
fails, the first tree is the answer and the form counts as degraded.
-/

namespace AlgebraTutor

/-- What the stages ask of the algebra behind them: the normal form of a tree, and whether a tree leads with a minus. -/
structure Simplifier where
  simplify : Tree → Answer Tree
  hasNegativeLead : Tree → Answer Bool

/-- The simplifier that the tutor works with. -/
def Simplifier.standard : Simplifier :=
  ⟨Tree.simplify, Tree.hasNegativeLead⟩

/-- The canonical tree of an input. -/
structure Canonical.Form where
  tree : Tree
  isEquation : Bool
  degraded : Bool
deriving DecidableEq

namespace Simplifier

variable (s : Simplifier)

/-- Multiply a tree out again and again, until its text stays the same or the number of rounds is used up. -/
def multiplyOut : Nat → Tree → Answer Tree
  | 0, t => .ok t
  | rounds + 1, t => do
    let before ← t.text
    let reread ← Tree.ofText before
    let spread ← reread.distribute
    let next ← s.simplify spread
    let after ← next.text
    if after = before then return next else multiplyOut rounds next

/-- The tree or its negative, whichever has a leading term without a minus. -/
def withPositiveLead (t : Tree) : Answer Tree := do
  if ← s.hasNegativeLead t then s.simplify (Tree.negate (.paren t)) else return t

end Simplifier

namespace Canonical

/-- The tree or its negative, as the tutor chooses. -/
def withPositiveLead (t : Tree) : Answer Tree :=
  Simplifier.standard.withPositiveLead t

/-- A stage of the way to the canonical tree. -/
abbrev Stage := Tree → Answer Tree

/-- The stages after the first simplification. The sign of an expression is its own; that of an equation is
free. -/
def stages (s : Simplifier) (config : Config) (isEquation : Bool) : List Stage :=
  [s.multiplyOut config.maxExpansions, Tree.tidyCoefficients] ++
    (if isEquation then [s.withPositiveLead] else []) ++ [Tree.withOrderedTerms, s.simplify]

/-- Run stages one after another; the first failure ends the run. -/
def runStages : List Stage → Tree → Answer Tree
  | [], t => .ok t
  | stage :: rest, t => do
    let next ← stage t
    runStages rest next

/-- The difference of two texts, as a text. -/
def differenceText (left right : String) : String :=
  "(" ++ left ++ ") - (" ++ right ++ ")"

/-- The text of the one expression that an input stands for. -/
def source (p : Input) : String :=
  match p.equation with
  | some (left, right) => differenceText left right
  | none => p.trimmed

/-- The canonical form with the given first tree. -/
def Form.ofBase (s : Simplifier) (config : Config) (isEquation : Bool) (base : Tree) : Form :=
  match runStages (stages s config isEquation) base with
  | .ok t => ⟨t, isEquation, false⟩
  | .error _ => ⟨base, isEquation, true⟩

/-- The canonical form of a text, worked out with any simplifier. -/
def Form.ofTextWith (s : Simplifier) (config : Config) (text : String) : Answer Form := do
  let p ← Input.ofText text
  let parsed ← Tree.ofText (source p)
  let base ← s.simplify parsed
  return Form.ofBase s config p.isEquation base

/-- The canonical form of a text. -/
def Form.ofText (config : Config) (text : String) : Answer Form :=
  Form.ofTextWith .standard config text

end Canonical

/-- The canonical tree of a text. -/
def canonicalTree (config : Config) (text : String) : Answer Tree := do
  let form ← Canonical.Form.ofText config text
  return form.tree

end AlgebraTutor
