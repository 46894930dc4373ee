/-!
# Greatest common divisors

Polynomials with integer coefficients in `n` ordered unknowns, as polynomials in the first unknown whose
coefficients are polynomials in the others. The greatest common divisor is found by the Euclidean algorithm
with pseudo-remainders, where each remainder is divided by the common divisor of its coefficients.
-/

namespace AlgebraTutor

/-- A polynomial in `n` unknowns: an integer, or the coefficients of the powers of the first unknown, highest
power first and without zeros. -/
def Nested : Nat → Type
  | 0 => Int
  | n + 1 => List (Nat × Nested n)

namespace Nested

/-- The zero polynomial. -/
def zero : (n : Nat) → Nested n
  | 0 => (0 : Int)
  | _ + 1 => []

/-- A constant polynomial. -/
def const : (n : Nat) → Int → Nested n
  | 0, c => c
  | n + 1, c => if c = 0 then [] else [(0, const n c)]

/-- Is it the zero polynomial? -/
def isZero : (n : Nat) → Nested n → Bool
  | 0, c => (show Int from c) == 0
  | _ + 1, p => (show List _ from p).isEmpty

/-- A term with its exponents, one for each unknown. -/
def term : (n : Nat) → List Nat → Int → Nested n
  | 0, _, c => c
  | n + 1, [], c => if c = 0 then [] else [(0, term n [] c)]
  | n + 1, e :: es, c => if c = 0 then [] else [(e, term n es c)]

/-- Put a coefficient in front of lower ones, unless it is zero. -/
def consNonzero {n : Nat} (d : Nat) (c : Nested n) (p : List (Nat × Nested n)) : List (Nat × Nested n) :=
  if isZero n c then p else (d, c) :: p

/-- Merge two rows of coefficients; `f` adds two that meet. -/
def merge {n : Nat} (f : Nested n → Nested n → Nested n) :
    List (Nat × Nested n) → List (Nat × Nested n) → List (Nat × Nested n)
  | [], q => q
  | p, [] => p
  | (d, a) :: p, (e, b) :: q =>
    if e < d then (d, a) :: merge f p ((e, b) :: q)
    else if d < e then (e, b) :: merge f ((d, a) :: p) q
    else consNonzero d (f a b) (merge f p q)
termination_by p q => p.length + q.length

/-- The sum of two polynomials. -/
def add : (n : Nat) → Nested n → Nested n → Nested n
  | 0, a, b => (show Int from a) + (show Int from b)
  | n + 1, p, q => merge (add n) p q

/-- The negative of a polynomial. -/
def neg : (n : Nat) → Nested n → Nested n
  | 0, a => -(show Int from a)
  | n + 1, p => (show List (Nat × Nested n) from p).map fun t => (t.1, neg n t.2)

/-- The product of two polynomials. -/
def mul : (n : Nat) → Nested n → Nested n → Nested n
  | 0, a, b => (show Int from a) * (show Int from b)
  | n + 1, p, q =>
    (show List (Nat × Nested n) from p).foldl
      (fun acc t => merge (add n) acc
        ((show List (Nat × Nested n) from q).map fun u => (t.1 + u.1, mul n t.2 u.2)))
      []

/-- Multiply by a polynomial in the later unknowns and by a power of the first. -/
def shiftMul {n : Nat} (d : Nat) (c : Nested n) (p : List (Nat × Nested n)) : List (Nat × Nested n) :=
  if isZero n c then [] else p.map fun t => (d + t.1, mul n c t.2)

/-- The difference of two rows of coefficients. -/
def subRow {n : Nat} (p q : List (Nat × Nested n)) : List (Nat × Nested n) :=
  merge (add n) p (q.map fun t => (t.1, neg n t.2))

/-- The quotient of two rows of coefficients, where `divide` divides coefficients; nothing if the division
leaves a remainder. -/
def divideRow {n : Nat} (divide : Nested n → Nested n → Option (Nested n)) :
    Nat → List (Nat × Nested n) → List (Nat × Nested n) → Option (List (Nat × Nested n))
  | _, [], _ => some []
  | 0, _, _ => none
  | _ + 1, _, [] => none
  | fuel + 1, (d, a) :: p, (e, b) :: q =>
    if d < e then none
    else
      (divide a b).bind fun c =>
        (divideRow divide fuel (subRow p (shiftMul (d - e) c q)) ((e, b) :: q)).map fun rest =>
          (d - e, c) :: rest

/-- The exact quotient of two polynomials. -/
def divide? : (n : Nat) → Nested n → Nested n → Option (Nested n)
  | 0, a, b =>
    let a : Int := a
    let b : Int := b
    if b = 0 then none else if a % b = 0 then some (a / b : Int) else none
  | n + 1, p, q =>
    let row : List (Nat × Nested n) := p
    divideRow (divide? n) ((row.head?.map (·.1)).getD 0 + 1) row q

/-- The leading coefficient among integers. -/
def leading : (n : Nat) → Nested n → Int
  | 0, c => c
  | n + 1, p =>
    match (show List (Nat × Nested n) from p) with
    | [] => 0
    | t :: _ => leading n t.2

/-- The polynomial or its negative, whichever has a positive leading coefficient. -/
def normalize (n : Nat) (p : Nested n) : Nested n :=
  if leading n p < 0 then neg n p else p

/-- The pseudo-remainder of two rows of coefficients; `fuel` bounds the number of steps. -/
def pseudoRemainder {n : Nat} : Nat → List (Nat × Nested n) → List (Nat × Nested n) → List (Nat × Nested n)
  | 0, p, _ => p
  | _, [], _ => []
  | _, p, [] => p
  | fuel + 1, (d, a) :: p, (e, b) :: q =>
    if d < e then (d, a) :: p
    else pseudoRemainder fuel (subRow (shiftMul 0 b p) (shiftMul (d - e) a q)) ((e, b) :: q)

/-- The common divisor of the coefficients of a row, given that of two coefficients. -/
def contentBy {n : Nat} (gcd : Nested n → Nested n → Nested n) (p : List (Nat × Nested n)) : Nested n :=
  p.foldl (fun g t => gcd g t.2) (zero n)

/-- A row divided by a common divisor of its coefficients. -/
def divideContent {n : Nat} (c : Nested n) (p : List (Nat × Nested n)) : List (Nat × Nested n) :=
  p.map fun t => (t.1, (divide? n t.2 c).getD t.2)

/-- The Euclidean algorithm on rows without common divisors of their coefficients. -/
def euclid {n : Nat} (gcd : Nested n → Nested n → Nested n) :
    Nat → List (Nat × Nested n) → List (Nat × Nested n) → List (Nat × Nested n)
  | 0, p, _ => p
  | _ + 1, p, [] => p
  | fuel + 1, p, q =>
    let degree := (p.head?.map (·.1)).getD 0
    let r := pseudoRemainder (degree + 1) p q
    euclid gcd fuel q (divideContent (contentBy gcd r) r)

/-- The greatest common divisor of two polynomials, with a positive leading coefficient. -/
def gcd : (n : Nat) → Nested n → Nested n → Nested n
  | 0, a, b => (Int.gcd a b : Int)
  | n + 1, p, q =>
    let p : List (Nat × Nested n) := p
    let q : List (Nat × Nested n) := q
    if p.isEmpty then normalize (n + 1) q
    else if q.isEmpty then normalize (n + 1) p
    else
      let cp := contentBy (gcd n) p
      let cq := contentBy (gcd n) q
      let p' := divideContent cp p
      let q' := divideContent cq q
      let degrees := (p.head?.map (·.1)).getD 0 + (q.head?.map (·.1)).getD 0
      let (high, low) :=
        if (p'.head?.map (·.1)).getD 0 < (q'.head?.map (·.1)).getD 0 then (q', p') else (p', q')
      let g := euclid (gcd n) (degrees + 2) high low
      let common := gcd n cp cq
      normalize (n + 1) (g.map fun t => (t.1, mul n common t.2))

/-- The terms of a polynomial with their exponents. -/
def terms : (n : Nat) → Nested n → List (List Nat × Int)
  | 0, c => [([], c)]
  | n + 1, p => (show List (Nat × Nested n) from p).flatMap fun t =>
    (terms n t.2).map fun u => (t.1 :: u.1, u.2)

end Nested

end AlgebraTutor
