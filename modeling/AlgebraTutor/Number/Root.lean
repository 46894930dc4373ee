/-!
# Roots and powers of natural numbers

Integer roots, perfect powers, and the factors that trial division finds: what it takes to move a whole
factor out of a radical.
-/

namespace AlgebraTutor.Number

/-- Search the greatest `r` in `[low, high)` with `r ^ k ≤ n`; `low` is one such. -/
def searchRoot (n k : Nat) : Nat → Nat → Nat → Nat
  | 0, low, _ => low
  | fuel + 1, low, high =>
    if high ≤ low + 1 then low
    else
      let middle := (low + high) / 2
      if Nat.pow middle k ≤ n then searchRoot n k fuel middle high else searchRoot n k fuel low middle

/-- The greatest natural number whose `k`th power is at most `n`, for a positive `k`. -/
def floorRoot (n k : Nat) : Nat :=
  if k = 0 then 0
  else if k = 1 then n
  else if n < 2 then n
  else if n.log2 < k then 1
  else
    let bits := n.log2 / k + 1
    searchRoot n k (bits + 1) (Nat.pow 2 (bits - 1)) (Nat.pow 2 bits)

/-- The `k`th root of a natural number, if it is one. -/
def exactRoot? (n k : Nat) : Option Nat :=
  let r := floorRoot n k
  if Nat.pow r k = n then some r else none

/-- The greatest exponent from `k` downwards at which `n` is a power, with its base. -/
def powerFrom (n : Nat) : Nat → Option (Nat × Nat)
  | 0 | 1 => none
  | k + 2 =>
    match exactRoot? n (k + 2) with
    | some r => some (r, k + 2)
    | none => powerFrom n (k + 1)

/-- The number as a power with the greatest exponent, if that is above one. -/
def perfectPower? (n : Nat) : Option (Nat × Nat) :=
  if n < 4 then none else powerFrom n n.log2

/-- Divide a number by `d` as often as possible; the number of divisions and what is left. -/
def divideOut (d : Nat) : Nat → Nat → Nat → Nat × Nat
  | 0, count, n => (count, n)
  | fuel + 1, count, n =>
    if d ≤ 1 ∨ n = 0 then (count, n)
    else if n % d = 0 then divideOut d fuel (count + 1) (n / d)
    else (count, n)

/-- How often `d`, at least two, divides a positive number, and what is left. -/
def multiplicity (d n : Nat) : Nat × Nat :=
  divideOut d (n.log2 + 1) 0 n

/-- Trial division by `d`, `d + 1`, …: the divisors found with their exponents, and what is left. -/
def trialFactors : Nat → Nat → Nat → List (Nat × Nat) × Nat
  | 0, _, n => ([], n)
  | fuel + 1, d, n =>
    if n < d * d then ([], n)
    else if n % d = 0 then
      let (count, rest) := multiplicity d n
      let (found, left) := trialFactors fuel (d + 1) rest
      ((d, count) :: found, left)
    else trialFactors fuel (d + 1) n

/-- The largest divisor that is tried. -/
def trialLimit : Nat := 32768

/-- The factors of a positive number: primes up to the limit, and the base of what is left. -/
def factors (n : Nat) : List (Nat × Nat) :=
  let (found, left) := trialFactors trialLimit 2 n
  if left ≤ 1 then found
  else match perfectPower? left with
    | some (base, exponent) => found ++ [(base, exponent)]
    | none => found ++ [(left, 1)]

end AlgebraTutor.Number
