import AlgebraTutor.Polynomial.Basic
import AlgebraTutor.Tree.Basic

/-!
# Laying out a polynomial

A polynomial as a tree in the one layout that the tutor answers in: terms in the order of their monomials,
negative terms after the first as differences, the coefficient in front of the unknowns, and the denominator
of a coefficient as the divisor of the whole term. Of two terms that are a positive number and a negative
multiple of a power of one unknown, the number comes first.
-/

namespace AlgebraTutor

namespace Tree

/-- The product of trees, from left to right. -/
def productOf : List Tree → Tree
  | [] => .const 1
  | t :: ts => ts.foldl (binary .mul) t

/-- Negate the first of some factors. -/
def negateFirst : List Tree → List Tree
  | [] => [.const (-1)]
  | t :: ts => t.negate :: ts

/-- The product of an integer and factors; a factor of one is not written, a factor of minus one as a sign. -/
def integerMultiple (n : Int) (factors : List Tree) : Tree :=
  if n = 1 then productOf factors
  else if n = -1 then productOf (negateFirst factors)
  else productOf (.const n :: factors)

/-- A rational number as an integer or a quotient of integers. -/
def ofRat (c : Rat) : Tree :=
  if c.den = 1 then .const c.num else binary .div (.const c.num) (.const c.den)

end Tree

namespace Monomial

/-- The power of an unknown. -/
def factorTree (f : String × Nat) : Tree :=
  if f.2 = 1 then .symbol f.1 else .binary .pow (.symbol f.1) (.const f.2)

/-- The factors of a monomial. -/
def toTrees (m : Monomial) : List Tree :=
  m.map factorTree

end Monomial

namespace Polynomial

/-- The tree of one term. -/
def termTree (m : Monomial) (c : Rat) : Tree :=
  if m.isEmpty then .ofRat c
  else
    let numerator := Tree.integerMultiple c.num m.toTrees
    if c.den = 1 then numerator else .binary .div numerator (.const c.den)

/-- Append the terms of a sum, one after another, to a tree. -/
def appendTerms (t : Tree) : List (Monomial × Rat) → Tree
  | [] => t
  | (m, c) :: rest =>
    appendTerms (if c < 0 then .binary .sub t (termTree m (-c)) else .binary .add t (termTree m c)) rest

/-- The terms in the order in which they are written. -/
def displayOrder : Polynomial → List (Monomial × Rat)
  | [([f], c), ([], d)] => if c < 0 ∧ 0 < d then [([], d), ([f], c)] else [([f], c), ([], d)]
  | p => p

/-- The tree of a polynomial. -/
def toTree (p : Polynomial) : Tree :=
  match p.displayOrder with
  | [] => .const 0
  | (m, c) :: rest => appendTerms (termTree m c) rest

end Polynomial

end AlgebraTutor
