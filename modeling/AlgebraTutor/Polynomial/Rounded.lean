import AlgebraTutor.Decimal.Double
import AlgebraTutor.Polynomial.Layout

/-!
# Polynomials in rounded arithmetic

The value of a polynomial in one unknown in double precision: every power, product and sum is rounded to the
nearest double, terms are added in the order in which they are written, and there is no value beyond the
largest double. All of it is exact arithmetic on rationals, so it can be computed in proofs.
-/

namespace AlgebraTutor.Polynomial

/-- The exponent from which on powers of numbers far from one are out of range. -/
def largeExponent : Nat := 2000

/-- The rounded power of a double. -/
def roundedPower? (x : Rat) (n : Nat) : Option Rat :=
  if largeExponent < n ∧ 2 ≤ x.abs then none
  else if largeExponent < n ∧ x.abs ≤ 1 / 2 then some 0
  else Decimal.nearestValue? (powRat x n)

/-- The rounded value of a term at a double, whatever the name of the unknown. -/
def roundedTerm? (x : Rat) (m : Monomial) (c : Rat) : Option Rat :=
  match m with
  | [] => Decimal.nearestValue? c
  | m =>
    (roundedPower? x (m.foldl (fun n f => n + f.2) 0)).bind fun power =>
      if c = 1 then some power
      else if c = -1 then some (-power)
      else (Decimal.nearestValue? c).bind fun k => Decimal.nearestValue? (k * power)

/-- Add the rounded values of terms to a sum. -/
def roundedSum? (x : Rat) : Rat → List (Monomial × Rat) → Option Rat
  | s, [] => some s
  | s, (m, c) :: rest =>
    (roundedTerm? x m c).bind fun v => (Decimal.nearestValue? (s + v)).bind fun s => roundedSum? x s rest

/-- The rounded value of a polynomial in one unknown at a double. -/
def roundedValue? (x : Rat) (p : Polynomial) : Option Rat :=
  match p.displayOrder with
  | [] => some 0
  | (m, c) :: rest => (roundedTerm? x m c).bind fun v => roundedSum? x v rest

/-- Is a value nearer to zero than the tolerance? -/
def isNearZero (tolerance : Rat) (v : Option Rat) : Bool :=
  match v with
  | some v => v.abs < tolerance
  | none => false

/-- Is a polynomial in at most one unknown near zero at all probes? One without an unknown has one value only. -/
def vanishesAt (probes : List Rat) (tolerance : Rat) (p : Polynomial) : Bool :=
  match p.constant? with
  | some c => isNearZero tolerance (Decimal.nearestValue? c)
  | none => probes.all fun x => isNearZero tolerance (p.roundedValue? x)

end AlgebraTutor.Polynomial
