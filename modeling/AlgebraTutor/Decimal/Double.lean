/-!
# The nearest double

Binary floating point in exact arithmetic: a positive finite double is `mantissa * 2 ^ exponent` with a
mantissa below `2 ^ 53` and an exponent of at least `-1074`. Rounding a rational to the nearest one, ties to
an even mantissa, needs no floating point operation, so it can be reasoned about.
-/

namespace AlgebraTutor.Decimal

/-- A non-negative finite double, `mantissa * 2 ^ exponent`. -/
structure Double where
  mantissa : Nat
  exponent : Int
deriving Repr, DecidableEq

/-- The least exponent, that of the subnormal numbers. -/
def minExponent : Int := -1074

/-- The greatest exponent of a finite double. -/
def maxExponent : Int := 971

/-- The quotient rounded to the nearest natural number, a tie to the even one. -/
def roundDivEven (num den : Nat) : Nat :=
  let q := num / den
  let r := num % den
  if 2 * r < den then q
  else if den < 2 * r then q + 1
  else if q % 2 = 0 then q else q + 1

/-- The quotient `num / den` in units of `2 ^ exponent`, as a fraction of naturals. -/
def inUnits (num den : Nat) (exponent : Int) : Nat × Nat :=
  if exponent < 0 then (num * Nat.pow 2 exponent.natAbs, den) else (num, den * Nat.pow 2 exponent.natAbs)

/-- The exponent at which `num / den` has a mantissa of 53 bits, but none below the least. -/
def fittingExponent (num den : Nat) : Int :=
  let guess : Int := (num.log2 : Int) - den.log2 - 52
  let (n, d) := inUnits num den guess
  max minExponent (if n < Nat.pow 2 52 * d then guess - 1 else guess)

/-- The double nearest to `num / den`, or `none` beyond the largest. -/
def nearest (num den : Nat) : Option Double :=
  if num = 0 then some ⟨0, minExponent⟩
  else
    let e := fittingExponent num den
    let (n, d) := inUnits num den e
    let m := roundDivEven n d
    let rounded : Double := if m = Nat.pow 2 53 then ⟨Nat.pow 2 52, e + 1⟩ else ⟨m, e⟩
    if maxExponent < rounded.exponent then none else some rounded

/-- The exact value of a double. -/
def Double.toRat (x : Double) : Rat :=
  if x.exponent < 0 then mkRat x.mantissa (Nat.pow 2 x.exponent.natAbs)
  else (x.mantissa * Nat.pow 2 x.exponent.natAbs : Nat)

/-- The value of the double nearest to a rational, or `none` where the rational is too large. -/
def nearestValue? (q : Rat) : Option Rat :=
  (nearest q.num.natAbs q.den).map fun x => if q.num < 0 then -x.toRat else x.toRat

end AlgebraTutor.Decimal
