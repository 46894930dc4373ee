import AlgebraTutor.Expr.Cancel
import AlgebraTutor.Expr.Layout
import AlgebraTutor.Polynomial.OfTree

/-!
# Simplifying a tree

The normal form of a tree. A tree that denotes a polynomial is answered by the polynomial itself; any other
tree is worked out as a value, brought to lowest terms and multiplied out. Trees that denote the same polynomial
have the same normal form.
-/

namespace AlgebraTutor.Tree

/-- The tree in lowest terms and multiplied out. -/
def simplify (t : Tree) : Answer Tree :=
  match t.polynomial? with
  | some p => .ok p.toTree
  | none => do
    let value ← Expr.ofTree t
    if value.hasUndefined then .error .undefined
    else (Expr.normalForm Expr.engine value).toTree

/-- The tree multiplied out. -/
def expand (t : Tree) : Answer Tree :=
  match t.polynomial? with
  | some p => .ok p.toTree
  | none => do
    let value ← Expr.ofTree t
    (Expr.engine.expand value).toTree

/-- The tree with automatic simplifications only. -/
def settle (t : Tree) : Answer Tree := do
  let value ← Expr.ofTree t
  value.toTree

/-- Is the tree written as the number zero? -/
def isWrittenAsZero (t : Tree) : Answer Bool := do
  let cs ← t.chars
  return cs == ['0'] || t == .const 0

/-- The polynomial of a tree whose sums stand in no product but with a number: automatic simplification alone
makes it a sum of monomials. -/
def sumOfMonomials? : Tree → Option Polynomial
  | .const value => some (.const value)
  | .symbol name => if isNamedConstant name then none else some (.var name)
  | .paren content => sumOfMonomials? content
  | .apply .sub [t] => (sumOfMonomials? t).map .neg
  | .apply .add [left, right] =>
    (sumOfMonomials? left).bind fun p => (sumOfMonomials? right).map fun q => p.add q
  | .apply .sub [left, right] =>
    (sumOfMonomials? left).bind fun p => (sumOfMonomials? right).map fun q => p.add q.neg
  | .apply .mul [left, right] =>
    (sumOfMonomials? left).bind fun p => (sumOfMonomials? right).bind fun q =>
      if p.constant?.isSome || q.constant?.isSome || (p.length ≤ 1 && q.length ≤ 1) then some (p.mul q) else none
  | .apply .div [left, right] =>
    (sumOfMonomials? left).bind fun p => ((sumOfMonomials? right).bind divisorOf?).map fun c => p.scale (1 / c)
  | .apply .pow [left, right] =>
    if right.isConstant then
      (sumOfMonomials? left).bind fun p => ((sumOfMonomials? right).bind naturalOf?).bind fun n =>
        if p.length ≤ 1 || n ≤ 1 then some (p.pow n) else none
    else none
  | _ => none

end Tree

/-- Has the greatest term with an unknown a negative coefficient? A constant answers with its own sign. -/
def Polynomial.hasNegativeLead : Polynomial → Bool
  | [] => false
  | (_, c) :: _ => c < 0

/-- Does the first term with an unknown begin with a minus? A constant answers with its own sign. -/
def Expr.hasNegativeLead (e : Expr) : Bool :=
  match e.orderedTerms.find? hasSymbol with
  | some t => t.isMinus
  | none => e.isMinus

/-- Does the first term of a tree that has an unknown carry a minus sign? Terms come in their written order. That of a
polynomial ignores coefficients, so a polynomial and its negative disagree. -/
def Tree.hasNegativeLead (t : Tree) : Answer Bool :=
  match t.sumOfMonomials? with
  | some p => .ok p.hasNegativeLead
  | none => do
    let value ← Expr.ofTree t
    return value.hasNegativeLead

end AlgebraTutor
