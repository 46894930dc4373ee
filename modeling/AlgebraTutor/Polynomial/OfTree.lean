import AlgebraTutor.Polynomial.Basic
import AlgebraTutor.Tree.Basic

/-!
# The polynomial of a tree

A tree built from numbers and unknowns by sums, differences, products, signs, natural powers and division
by numbers other than zero denotes a polynomial, and here it is computed. Any other tree has none.
-/

namespace AlgebraTutor.Tree

/-- The natural number that a polynomial is, if it is one. -/
def naturalOf? (p : Polynomial) : Option Nat :=
  match p.constant? with
  | some c => if c.den = 1 ∧ 0 ≤ c.num then some c.num.toNat else none
  | none => none

/-- The number other than zero that a polynomial is, if it is one. -/
def divisorOf? (p : Polynomial) : Option Rat :=
  match p.constant? with
  | some c => if c = 0 then none else some c
  | none => none

/-- The polynomial that a tree denotes, if it denotes one. -/
def polynomial? : Tree → Option Polynomial
  | .const value => some (.const value)
  | .symbol name => if isNamedConstant name then none else some (.var name)
  | .paren content => polynomial? content
  | .apply .sub [t] => (polynomial? t).map .neg
  | .apply .add [left, right] =>
    (polynomial? left).bind fun p => (polynomial? right).map fun q => p.add q
  | .apply .sub [left, right] =>
    (polynomial? left).bind fun p => (polynomial? right).map fun q => p.add q.neg
  | .apply .mul [left, right] =>
    (polynomial? left).bind fun p => (polynomial? right).map fun q => p.mul q
  | .apply .div [left, right] =>
    (polynomial? left).bind fun p => ((polynomial? right).bind divisorOf?).map fun c => p.scale (1 / c)
  | .apply .pow [left, right] =>
    if right.isConstant then
      (polynomial? left).bind fun p => ((polynomial? right).bind naturalOf?).map fun n => p.pow n
    else none
  | _ => none

end AlgebraTutor.Tree
