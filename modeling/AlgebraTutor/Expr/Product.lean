import AlgebraTutor.Expr.Sum

/-!
# Products

A product in normal form has its numbers multiplied, the powers of one base joined where their exponents
differ by a number only, and the radicals of natural numbers reduced. A number times a sum is spread over
the sum.
-/

namespace AlgebraTutor.Expr

/-- The factors of a product, sorted by what is to be done with them. -/
structure Factors where
  /-- The product of the numbers. -/
  number : Rat
  /-- Is the infinite value among the factors? -/
  infinite : Bool
  /-- Has some factor no value? -/
  indeterminate : Bool
  /-- Powers of any base. -/
  powers : List (Expr × Expr)
  /-- Powers of positive numbers with exponents that are no numbers. -/
  numberPowers : List (Expr × Expr)
  /-- The exponent of minus one. -/
  signExponent : Rat
  /-- Powers of positive numbers with fractional exponents. -/
  radicals : List (Rat × Rat)

/-- The empty product. -/
def Factors.empty : Factors := ⟨1, false, false, [], [], 0, []⟩

/-- The power of a rational to an integer exponent; zero has no negative power. -/
def ratPower (q : Rat) (n : Int) : Rat :=
  if q = 1 then 1
  else if q = -1 then (if n % 2 = 0 then 1 else -1)
  else if q = 0 then (if n = 0 then 1 else 0)
  else if 0 ≤ n then q ^ n.natAbs
  else 1 / q ^ n.natAbs

/-- Take one more factor in; `fuel` bounds how often a factor falls apart into others. -/
def Factors.insert (E : Engine) : Nat → Factors → Expr → Factors
  | 0, acc, _ => acc
  | fuel + 1, acc, e =>
    match e with
    | mul fs => fs.foldl (Factors.insert E fuel) acc
    | num q => { acc with number := acc.number * q }
    | .infinite => { acc with infinite := true }
    | .indeterminate => { acc with indeterminate := true }
    | named .i => { acc with signExponent := acc.signExponent + 1 / 2 }
    | pow b x =>
      match basePower (pow b x) with
      | (num q, num r) =>
        if r.den = 1 then
          if q = 0 ∧ r < 0 then { acc with infinite := true }
          else { acc with number := acc.number * ratPower q r.num }
        else if r < 0 then Factors.insert E fuel acc (E.power (num q) (num r))
        else
          let acc := if q < 0 then { acc with signExponent := acc.signExponent + r } else acc
          let q := if q < 0 then -q else q
          if q = 1 then acc else { acc with radicals := acc.radicals ++ [(q, r)] }
      | (num q, r) =>
        if 0 < q then { acc with numberPowers := acc.numberPowers ++ [(num q, r)] }
        else { acc with powers := acc.powers ++ [(num q, r)] }
      | (b, r) => { acc with powers := acc.powers ++ [(b, r)] }
    | e => { acc with powers := acc.powers ++ [e.basePower] }

/-- A base with the part of its exponent that is no number. -/
structure PowerShare where
  base : Expr
  tail : Expr
  amount : Rat

/-- The order of bases, then of exponents. -/
def PowerShare.compare (a b : PowerShare) : Ordering :=
  (Expr.compare a.base b.base).then (Expr.compare a.tail b.tail)

/-- Add up the exponents of equal neighbours. -/
def joinShares : List PowerShare → List PowerShare
  | [] => []
  | s :: rest =>
    match joinShares rest with
    | t :: ts =>
      if s.compare t == .eq then ⟨s.base, s.tail, s.amount + t.amount⟩ :: ts else s :: t :: ts
    | [] => [s]

/-- Join the powers of one base whose exponents are multiples of one value. -/
def gather (E : Engine) (powers : List (Expr × Expr)) : List (Expr × Expr) :=
  let shares := powers.map fun p => let (c, tail) := p.2.coefficient; (⟨p.1, tail, c⟩ : PowerShare)
  (joinShares (shares.mergeSort fun a b => a.compare b != .gt)).map fun s =>
    (s.base, E.product [num s.amount, s.tail])

/-- Is a sum or a product with an infinite part? -/
def hasInfinitePart : Expr → Bool
  | add ts => ts.any isInfinite
  | mul fs => fs.any isInfinite
  | _ => false

/-- Powers worked out: the number among them, the factors, and their new bases and exponents. -/
structure WorkedPowers where
  number : Rat
  indeterminate : Bool
  factors : List Expr
  powers : List (Expr × Expr)
  changed : Bool

/-- Work out one power. -/
def WorkedPowers.step (E : Engine) (acc : WorkedPowers) (p : Expr × Expr) : WorkedPowers :=
  let (b, x) := p
  match x with
  | num q =>
    if q = 0 then { acc with indeterminate := acc.indeterminate || b.hasInfinitePart }
    else if q = 1 then
      match b with
      | num r => { acc with number := acc.number * r }
      | b => { acc with factors := acc.factors ++ [b], powers := acc.powers ++ [(b, x)] }
    else general acc b x
  | x => general acc b x
where
  /-- Work out a power whose exponent is neither zero nor one. -/
  general (acc : WorkedPowers) (b x : Expr) : WorkedPowers :=
    let p := E.power b x
    let (b', x') := match p, b with
      | pow _ _, pow _ _ => (b, x)
      | pow _ _, _ => p.basePower
      | _, _ => (b, x)
    { acc with
      factors := acc.factors ++ [p]
      powers := acc.powers ++ [(b', x')]
      changed := acc.changed || !(b' == b) }

/-- Have two powers the same base? -/
def hasRepeatedBase (powers : List (Expr × Expr)) : Bool :=
  let bases := sort (powers.map (·.1))
  (dedup bases).length != bases.length

/-- Work out powers, once more if that has made two bases equal. -/
def workPowers (E : Engine) (powers : List (Expr × Expr)) (number : Rat) : Nat → WorkedPowers
  | 0 => powers.foldl (WorkedPowers.step E) ⟨number, false, [], [], false⟩
  | fuel + 1 =>
    let worked := powers.foldl (WorkedPowers.step E) ⟨number, false, [], [], false⟩
    if worked.changed && hasRepeatedBase worked.powers && !worked.indeterminate then
      workPowers E (gather E worked.powers) worked.number fuel
    else worked

/-- Multiply the bases of the powers with one exponent. -/
def joinBases (E : Engine) (powers : List (Expr × Expr)) : List Expr :=
  let exponents := dedup (sort (powers.map (·.2)))
  exponents.filterMap fun x =>
    match x with
    | num 0 => none
    | x =>
      let bases := powers.filterMap fun p => if p.2 == x then some p.1 else none
      some (E.power (E.product bases) x)

/-- Take the whole part out of a fractional exponent: the number it gives, and the rest. -/
def splitExponent (base exponent : Rat) : Rat × Rat :=
  let whole := exponent.floor
  (ratPower base whole, exponent - whole)

/-- Insert an amount under a rational key into a row with distinct keys. -/
def insertAmount (key amount : Rat) : List (Rat × Rat) → List (Rat × Rat)
  | [] => [(key, amount)]
  | (k, a) :: rest => if k = key then (k, a + amount) :: rest else (k, a) :: insertAmount key amount rest

/-- Insert a factor under a rational key into a row with distinct keys. -/
def insertFactor (key factor : Rat) : List (Rat × Rat) → List (Rat × Rat)
  | [] => [(key, factor)]
  | (k, a) :: rest => if k = key then (k, a * factor) :: rest else (k, a) :: insertFactor key factor rest

/-- The greatest common divisor of two positive rationals. -/
def ratGcd (p q : Rat) : Rat :=
  mkRat (Nat.gcd p.num.natAbs q.num.natAbs) (Nat.lcm p.den q.den)

/-- Take the common divisors of one radical with the others out of all of them. Answers the number that comes
out whole, the base that is left, the others, and the new radicals. -/
def shareDivisors (base exponent : Rat) : List (Rat × Rat) → Rat × Rat × List (Rat × Rat) × List (Rat × Rat)
  | [] => (1, base, [], [])
  | (b, x) :: rest =>
    if base = 1 then (1, base, (b, x) :: rest, [])
    else
      let g := ratGcd base b
      if g = 1 then
        let (number, base', rest', new) := shareDivisors base exponent rest
        (number, base', (b, x) :: rest', new)
      else
        let (whole, x') := splitExponent g (exponent + x)
        let (number, base', rest', new) := shareDivisors (base / g) exponent rest
        (number * whole, base', (b / g, x) :: rest', if x' = 0 then new else (g, x') :: new)

/-- Reduce radicals until no two of them have a common divisor: the number that comes out whole, and the
products of the bases under each exponent. -/
def reduceRadicals (E : Engine) : Nat → List (Rat × Rat) → Rat × List (Rat × Rat) × List Expr
  | 0, _ => (1, [], [])
  | _ + 1, [] => (1, [], [])
  | fuel + 1, (base, exponent) :: rest =>
    if base = 1 then reduceRadicals E fuel rest
    else
      let (whole, base', rest', new) := shareDivisors base exponent rest
      let (number, roots, others) := reduceRadicals E fuel (rest' ++ new)
      if base' = 1 then (whole * number, roots, others)
      else
        (E.power (num base') (num exponent)).factors.foldl
          (fun (acc : Rat × List (Rat × Rat) × List Expr) f =>
            match f with
            | num q => (acc.1 * q, acc.2)
            | pow (num b) (num x) => (acc.1, insertFactor x b acc.2.1, acc.2.2)
            | f => (acc.1, acc.2.1, f :: acc.2.2))
          (whole * number, roots, others)

/-- The radicals of a product: equal exponents first joined, then whole parts taken out. -/
def workRadicals (E : Engine) (radicals : List (Rat × Rat)) : Rat × List (Rat × Rat) × List Expr :=
  let byBase : List (Rat × Rat) := radicals.foldl (fun acc p => insertAmount p.1 p.2 acc) []
  let byExponent : List (Rat × Rat) := byBase.foldl (fun acc p => insertFactor p.2 p.1 acc) []
  let number : Rat := byExponent.foldl (fun n p => n * (splitExponent p.2 p.1).1) 1
  let proper : List (Rat × Rat) := byExponent.filterMap fun p =>
    let rest := (splitExponent p.2 p.1).2
    if rest = 0 then none else some (p.2, rest)
  let (n, roots, others) := reduceRadicals E 64 proper
  (number * n, roots, others)

/-- A power of minus one as a sign and a factor. It joins a radical with the same exponent. -/
def workSign (exponent : Rat) (roots : List (Rat × Rat)) : Rat × List (Rat × Rat) × List Expr :=
  let whole := exponent.floor
  let rest := exponent - whole
  let sign : Rat := if whole % 2 = 0 then 1 else -1
  if rest = 0 then (sign, roots, [])
  else if rest = 1 / 2 then (sign, roots, [i])
  else if roots.any fun r => r.1 = rest then
    (sign, roots.map fun r => if r.1 = rest then (r.1, -r.2) else r, [])
  else (sign, roots, [pow minusOne (num rest)])

/-- Spread a number over a sum. -/
def spread (E : Engine) (c : Rat) (ts : List Expr) : Expr :=
  E.sum (ts.map fun t => match t with
    | num q => num (c * q)
    | t => let (q, part) := t.coefficient
      if c * q = 1 then part else mul (num (c * q) :: part.factors))

/-- A number that multiplies sorted factors. -/
def numberTimes (E : Engine) (c : Rat) (fs : List Expr) : Expr :=
  if c = 1 then rawMul fs
  else match fs with
    | [] => num c
    | [add ts] => spread E c ts
    | fs => mul (num c :: fs)

/-- The product of three or more values, or of two that are no numbers. -/
def productOfMany (E : Engine) (es : List Expr) : Expr :=
  let acc := es.foldl (Factors.insert E 8) .empty
  if acc.indeterminate then indeterminate
  else if acc.infinite && acc.number = 0 then indeterminate
  else
    let worked := workPowers E (gather E acc.powers) acc.number 1
    if worked.indeterminate then indeterminate
    else
      let combined := joinBases E (gather E acc.numberPowers)
      let (n, roots, others) := workRadicals E acc.radicals
      let (sign, roots, units) := workSign acc.signExponent roots
      let radicals := roots.map fun r => E.power (num r.2) (num r.1)
      let parts := worked.factors ++ combined ++ others ++ units ++ radicals
      if parts.any isIndeterminate then indeterminate
      else
        let inf := acc.infinite || parts.any isInfinite
        let number := parts.foldl (fun q f => match f with | num r => q * r | _ => q) (worked.number * n * sign)
        let rest := sort (parts.filter fun f => !(f.isNum || f.isInfinite))
        if inf then
          if number = 0 then indeterminate
          else rawMul (infinite :: rest.filter fun f => f.hasSymbol || f.hasUndefined)
        else if number = 0 then zero
        else numberTimes E number rest

/-- The product of values. -/
def productWith (E : Engine) (es : List Expr) : Expr :=
  match es.filter (fun e => !(e == one)) with
  | [] => one
  | [e] => e
  | [num p, num q] => num (p * q)
  | [num c, e] | [e, num c] =>
    if c = 0 || e.isUndefined then productOfMany E [num c, e]
    else
      let (q, part) := e.coefficient
      numberTimes E (c * q) part.factors
  | es => productOfMany E es

end AlgebraTutor.Expr
