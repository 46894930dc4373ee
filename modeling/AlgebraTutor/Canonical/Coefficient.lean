import AlgebraTutor.Tree.Basic

/-!
# Normal coefficients

A product with a number as a factor has it in front, and none of the factors `0`, `1` and `-1`: the first makes
the product zero, the second is left out and the third becomes a sign.
-/

namespace AlgebraTutor.Tree

/-- A product of a number and a tree without outer parentheses; `whole` is what stays if there is nothing to do. -/
def coefficientProduct (c : Rat) (other whole : Tree) : Tree :=
  if c = 0 then .const 0
  else if c = 1 then other
  else if c = -1 then other.negate
  else whole

/-- Normalize the coefficient of a product; any other tree stays as it is. -/
def coefficientNode : Tree → Tree
  | .apply .mul [left, right] =>
    match left.stripParens, right.stripParens with
    | .const c, r => coefficientProduct c r (.apply .mul [left, right])
    | l, .const c => coefficientProduct c l (binary .mul (.const c) l)
    | _, _ => .apply .mul [left, right]
  | t => t

/-- Normalize every coefficient of a tree. -/
def tidyCoefficients (t : Tree) : Answer Tree :=
  t.rebuild coefficientNode

end AlgebraTutor.Tree
