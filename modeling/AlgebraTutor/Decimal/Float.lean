import AlgebraTutor.Decimal.Double

/-!
# Floating point values of rationals

The double nearest to a rational as a machine number, and the exact value of a machine number.
-/

namespace AlgebraTutor.Decimal

/-- A double as a machine number. -/
def Double.toFloat (x : Double) : Float :=
  (Float.ofNat x.mantissa).scaleB x.exponent

/-- The machine number nearest to a rational; beyond the largest it is an infinity. -/
def toFloat (q : Rat) : Float :=
  let size := match nearest q.num.natAbs q.den with
    | some x => x.toFloat
    | none => 1.0 / 0.0
  if q.num < 0 then -size else size

/-- The mantissa and the exponent that the bits of a machine number hold. -/
def parts (x : Float) : Double :=
  let bits := x.toBits.toNat
  let fraction : Nat := bits % Nat.pow 2 52
  let exponent : Nat := bits / Nat.pow 2 52 % Nat.pow 2 11
  if exponent = 0 then ⟨fraction, minExponent⟩ else ⟨Nat.pow 2 52 + fraction, (exponent : Int) - 1075⟩

/-- The exact value of a machine number, or `none` if it is not finite. -/
def ofFloat? (x : Float) : Option Rat :=
  if x.isFinite then
    let size := (parts x).toRat
    some (if x < 0 then -size else size)
  else none

end AlgebraTutor.Decimal
