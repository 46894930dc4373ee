import AlgebraTutor.Expr.Order

/-!
# The operations on values

Sums, products, powers and functions call one another: a power of a product is a product of powers, whose
exponents are sums. Each of them is therefore defined over a record of all of them, and `Expr.engine` ties
the knot a bounded number of times.
-/

namespace AlgebraTutor

/-- The operations that bring a value into normal form. -/
structure Engine where
  sum : List Expr → Expr
  product : List Expr → Expr
  power : Expr → Expr → Expr
  apply : Func → Expr → Expr
  expand : Expr → Expr

namespace Engine

/-- The operations that only build. -/
def inert : Engine := ⟨Expr.rawAdd, Expr.rawMul, Expr.pow, Expr.fn, id⟩

variable (E : Engine)

/-- The quotient of two values. -/
def quotient (a b : Expr) : Expr :=
  E.product [a, E.power b Expr.minusOne]

/-- The difference of two values. -/
def difference (a b : Expr) : Expr :=
  E.sum [a, b.neg]

/-- The square root of a value. -/
def sqrt (a : Expr) : Expr :=
  E.power a Expr.half

/-- A number times a value, where a sum stays whole behind a number other than one and minus one. -/
def keepCoefficient (c : Rat) (e : Expr) : Expr :=
  match e with
  | .num q => .num (c * q)
  | e =>
    if c = 1 then e
    else if c = -1 then e.neg
    else match e with
      | .add ts => .mul [.num c, .add ts]
      | .mul (.num q :: fs) => if c * q = 1 then Expr.rawMul fs else .mul (.num (c * q) :: fs)
      | .mul fs => .mul (.num c :: fs)
      | e => E.product [.num c, e]

end Engine

end AlgebraTutor
