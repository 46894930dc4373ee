import AlgebraTutor.Decimal.Double

/-!
# The shortest decimal of a double

A double is written with the fewest digits that read back as the same double and, of those, with the
digits nearest to it. The digits are found on the decimal grids of one, two, … seventeen digits: if a point of
a grid reads back, so does one of the two neighbours of the double on that grid.
-/

namespace AlgebraTutor.Decimal

/-- A decimal `digits * 10 ^ power`. -/
structure Digits where
  digits : Nat
  power : Int
deriving Repr, DecidableEq

/-- The fraction `n * 2 ^ e` in quarters of its last place, scaled by a power of ten: numerator and denominator. -/
def scaled (quarters : Nat) (exponent power : Int) : Nat × Nat :=
  let e := exponent - 2
  let num := quarters * (if 0 < e then Nat.pow 2 e.natAbs else 1) * (if power < 0 then Nat.pow 10 power.natAbs else 1)
  let den := (if e < 0 then Nat.pow 2 e.natAbs else 1) * (if 0 < power then Nat.pow 10 power.natAbs else 1)
  (num, den)

/-- The quarters of the last place from a double down to the end of the interval that rounds to it. -/
def lowerGap (x : Double) : Nat :=
  if x.mantissa = Nat.pow 2 52 ∧ minExponent < x.exponent then 1 else 2

/-- Does `d * 10 ^ power` lie in the interval that rounds to the double? The ends belong to it when the mantissa is even. -/
def roundsTo (x : Double) (d : Nat) (power : Int) : Bool :=
  let (lowNum, lowDen) := scaled (4 * x.mantissa - lowerGap x) x.exponent power
  let (highNum, highDen) := scaled (4 * x.mantissa + 2) x.exponent power
  if x.mantissa % 2 = 0 then lowNum ≤ d * lowDen && d * highDen ≤ highNum
  else lowNum < d * lowDen && d * highDen < highNum

/-- The neighbour of the double on the grid of multiples of `10 ^ power` that reads back as it, the nearer one if both do. -/
def gridPoint? (x : Double) (power : Int) : Option Nat :=
  let (num, den) := scaled (4 * x.mantissa) x.exponent power
  let low := num / den
  let rest := num % den
  let lowFits := roundsTo x low power
  let highFits := roundsTo x (low + 1) power
  if lowFits && highFits then
    some (if 2 * rest < den then low else if den < 2 * rest then low + 1 else if low % 2 = 0 then low else low + 1)
  else if lowFits then some low
  else if highFits then some (low + 1)
  else none

/-- The number of decimal digits of a natural number. -/
def digitCount (n : Nat) : Nat :=
  (Nat.toDigits 10 n).length

/-- The power of ten of the first digit of a positive double. -/
def leadingPower (x : Double) : Int :=
  let (num, den) := scaled (4 * x.mantissa) x.exponent 0
  if den ≤ num then digitCount (num / den) - 1
  else
    -- the first digit after the point stands as far behind it as the reciprocal has digits before it
    let inverse := den / num
    if inverse * num = den ∧ inverse = Nat.pow 10 (digitCount inverse - 1) then -(digitCount inverse - 1 : Int)
    else -(digitCount inverse : Int)

/-- The first hit on the grids from `count` digits upwards. -/
def searchGrids (x : Double) (lead : Int) : Nat → Nat → Digits
  | 0, count =>
    let power := lead - count
    let (num, den) := scaled (4 * x.mantissa) x.exponent power
    ⟨num / den, power⟩
  | fuel + 1, count =>
    let power := lead - count
    match gridPoint? x power with
    | some d => ⟨d, power⟩
    | none => searchGrids x lead fuel (count + 1)

/-- The shortest decimal that reads back as a positive double. -/
def shortest (x : Double) : Digits :=
  searchGrids x (leadingPower x) 18 0

/-- How a decimal is laid out: the exponents of the first digit that are written positionally run from `least` to below `limit`. -/
structure Layout where
  least : Int
  limit : Int
  minExponentDigits : Nat

/-- Numbers are written positionally from `0.0001` to below `10 ^ 16`, and otherwise with an exponent of at least two digits. -/
def standardLayout : Layout := ⟨-4, 16, 2⟩

/-- The digits of a decimal without the zeros at its end. -/
def significant (d : Digits) : List Char × Int :=
  let text := Nat.toDigits 10 d.digits
  let kept := (text.reverse.dropWhile (· == '0')).reverse
  (kept, d.power + (text.length - kept.length : Nat))

/-- Write a positive decimal. -/
def Digits.render (layout : Layout) (d : Digits) : List Char :=
  let (ds, power) := significant d
  let first : Int := power + ds.length - 1
  if layout.least ≤ first ∧ first < layout.limit then
    if 0 ≤ power then ds ++ List.replicate power.natAbs '0' ++ ['.', '0']
    else if 0 ≤ first then ds.take (first.natAbs + 1) ++ '.' :: ds.drop (first.natAbs + 1)
    else '0' :: '.' :: List.replicate (first.natAbs - 1) '0' ++ ds
  else
    let exponent := Nat.toDigits 10 first.natAbs
    let padded := List.replicate (layout.minExponentDigits - exponent.length) '0' ++ exponent
    let mantissa := match ds with
      | [] => []
      | [c] => [c]
      | c :: cs => c :: '.' :: cs
    mantissa ++ 'e' :: (if first < 0 then '-' else '+') :: padded

/-- The text of the double nearest to a rational, or `none` where the rational is too large for a double. -/
def textOfNearest? (q : Rat) : Option (List Char) :=
  (nearest q.num.natAbs q.den).map fun x =>
    (if q.num < 0 then ['-'] else []) ++
      (if x.mantissa = 0 then ['0', '.', '0'] else (shortest x).render standardLayout)

end AlgebraTutor.Decimal
