import AlgebraTutor.Expr.Power

/-!
# Numerators and denominators

A value as a quotient. A power goes into the denominator when its exponent is negative, and the parts of a
fractional power are separated only if the denominator is known to be positive.
-/

namespace AlgebraTutor.Expr

/-- The content of a sum: the greatest rational that divides every coefficient, and the sum divided by it. -/
def primitive (ts : List Expr) : Rat × List Expr :=
  let coefficients := ts.map fun t => t.coefficient.1
  let numerator := coefficients.foldl (fun g c => Nat.gcd g c.num.natAbs) 0
  let denominator := coefficients.foldl (fun l c => Nat.lcm l c.den) 1
  if numerator = 0 ∨ (numerator = 1 ∧ denominator = 1) then (1, ts)
  else
    let content := mkRat numerator denominator
    let divided := ts.map fun t =>
      let (c, part) := t.coefficient
      let c := c / content
      match part with
      | num _ => num c
      | part => if c = 1 then part else mul (num c :: part.factors)
    (content, sort divided)

/-- Is an exponent negative, or a product that counts as negative? -/
def isNegativeExponent (x : Expr) : Bool :=
  let known := x.facts
  known.negative || (x.isMul && !known.positive && x.isMinus)

/-- Is the exponent of an exponential negative, or a value that counts as negative? -/
def isNegativeArgument (x : Expr) : Bool :=
  let known := x.facts
  known.negative || (!known.positive && x.isMinus)

mutual

/-- The numerator and the denominator of a value; `fuel` bounds the depth that is looked at. -/
def numerDenom (E : Engine) : Nat → Expr → Expr × Expr
  | 0, e => (e, one)
  | fuel + 1, e =>
    match e with
    | num q => (num q.num, num q.den)
    | fn .exp x => if x.isNegativeArgument then (one, E.apply .exp x.neg) else (e, one)
    | pow _ _ =>
      let (b, x) := e.basePower
      let (n, d) := numerDenom E fuel b
      let negative := x.isNegativeExponent
      let known := d.facts
      let (n, d) :=
        if x.isInt then (if known.negative then (n.neg, d.neg) else (n, d))
        else if known.negative then (n.neg, d.neg)
        else if known.positive then (n, d)
        else (b, one)
      let (n, d) := if negative then (d, n) else (n, d)
      let x := if negative then x.neg else x
      (E.power n x, E.power d x)
    | mul fs =>
      let parts := numerDenoms E fuel fs
      (E.product (parts.map (·.1)), E.product (parts.map (·.2)))
    | add ts =>
      let (content, ts) := primitive ts
      let parts := numerDenoms E fuel ts
      let denominators := dedup (sort (parts.map (·.2)))
      match denominators with
      | [d] => (E.sum (parts.map fun p => E.keepCoefficient content.num p.1), E.keepCoefficient content.den d)
      | ds =>
        let numerators := ds.map fun d =>
          E.sum (parts.filterMap fun p => if p.2 == d then some p.1 else none)
        let crossed := (ds.zip numerators).map fun (d, n) => E.product (n :: ds.filter fun d' => !(d' == d))
        (E.keepCoefficient content.num (E.sum crossed), E.keepCoefficient content.den (E.product ds))
    | e => (e, one)

/-- The numerators and denominators of several values. -/
def numerDenoms (E : Engine) : Nat → List Expr → List (Expr × Expr)
  | 0, es => es.map fun e => (e, one)
  | fuel + 1, es => es.map (numerDenom E fuel)

end

/-- How deep quotients are taken apart. -/
def fractionDepth : Nat := 200

/-- The numerator and the denominator of a value. -/
def asFraction (E : Engine) (e : Expr) : Expr × Expr :=
  numerDenom E fractionDepth e

/-- The factors of one value in the numerator and in the denominator. -/
def splitFactor (E : Engine) (f : Expr) : List Expr × List Expr :=
  match f with
  | num q => (if q.num = 1 ∧ q.den ≠ 1 then [] else [num q.num], if q.den = 1 then [] else [num q.den])
  | pow _ _ | fn .exp _ =>
    let (b, x) := f.basePower
    let known := x.facts
    if known.negative then ([], [E.power b x.neg])
    else if known.positive then ([f], [])
    else if x.isMul then
      let (n, d) := asFraction E f
      ([n], [d])
    else ([f], [])
  | f => ([f], [])

/-- The factors with a negative exponent gathered in a denominator. -/
def shallowFraction (E : Engine) (e : Expr) : Expr × Expr :=
  let parts := e.factors.map (splitFactor E)
  (E.product (parts.flatMap (·.1)), E.product (parts.flatMap (·.2)))

end AlgebraTutor.Expr
