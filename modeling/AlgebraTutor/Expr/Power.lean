import AlgebraTutor.Expr.Product
import AlgebraTutor.Number.Root

/-!
# Powers

A power of a number is worked out as far as it is exact: `12 ^ (1/2)` is `2 * 3 ^ (1/2)`. A power of a power and
a power of a product are taken apart only where that holds for every complex value of the unknowns.
-/

namespace AlgebraTutor.Expr

open Number

/-- A factor of a radicand: whole factors come out, and what is left is gathered by its exponent. -/
structure RootParts where
  /-- What comes out whole. -/
  whole : Nat
  /-- Powers of primes that become radicals of a smaller index. -/
  radicals : List (Nat × Rat)
  /-- Primes that stay under the root, with their exponents. -/
  left : List (Nat × Nat)

/-- Sort one prime power out of `p ^ (num / den)`. -/
def RootParts.step (num den : Nat) (acc : RootParts) (f : Nat × Nat) : RootParts :=
  let exponent := f.2 * num
  let whole := exponent / den
  let rest := exponent % den
  let acc := { acc with whole := acc.whole * Nat.pow f.1 whole }
  if rest = 0 then acc
  else
    let g := Nat.gcd rest den
    if g = 1 then { acc with left := acc.left ++ [(f.1, rest)] }
    else { acc with radicals := acc.radicals ++ [(f.1, mkRat (rest / g) (den / g))] }

/-- The power `n ^ (num / den)` of a natural number above one to a positive fraction. -/
def naturalPower (E : Engine) (n num den : Nat) : Expr :=
  match exactRoot? n den with
  | some r => Expr.num (Nat.pow r num : Rat)
  | none =>
    let primes := match perfectPower? n with
      | some p => [p]
      | none => Number.factors n
    let parts := primes.foldl (RootParts.step num den) ⟨1, [], []⟩
    let common : Nat := parts.left.foldl (fun g p => Nat.gcd g p.2) 0
    let radicand : Nat := parts.left.foldl (fun r p => r * Nat.pow p.1 (p.2 / common)) 1
    if radicand == n && parts.whole == 1 && parts.radicals.isEmpty then
      pow (Expr.num (n : Rat)) (Expr.num (mkRat num den))
    else
      let root : Expr :=
        if radicand == 1 then Expr.one else E.power (Expr.num (radicand : Rat)) (Expr.num (mkRat common den))
      let roots : List Expr :=
        parts.radicals.map fun p => E.power (Expr.num (p.1 : Rat)) (Expr.num p.2)
      E.product (Expr.num (parts.whole : Rat) :: roots ++ [root])

/-- The power of minus one to a fraction. -/
def signPower (E : Engine) (x : Rat) : Expr :=
  let whole := x.floor
  let rest := x - whole
  let sign := num (if whole % 2 = 0 then 1 else -1)
  let unit := if rest = 0 then one else if rest = 1 / 2 then i else pow minusOne (num rest)
  if whole = 0 then unit else E.product [sign, unit]

/-- The power of an integer other than zero and one to a fraction that is no integer. -/
def integerPower (E : Engine) (n : Int) (x : Rat) : Expr :=
  if n = -1 then signPower E x
  else if n < 0 ∧ x = 1 / 2 then E.product [i, E.power (num n.natAbs) half]
  else if x < 0 then
    let root := E.power (num (mkRat 1 n.natAbs)) (num (-x))
    if n < 0 then E.product [signPower E x, root] else root
  else
    let root := naturalPower E n.natAbs x.num.natAbs x.den
    if n < 0 then
      match root with
      | pow (num b) y => if b = n.natAbs then pow (num n) y else E.product [root, signPower E x]
      | root => E.product [root, signPower E x]
    else root

/-- The power of a fraction that is no integer to a fraction that is no integer. -/
def fractionPower (E : Engine) (q x : Rat) : Expr :=
  if x < 0 then
    let root := E.power (num (1 / q).abs) (num (-x))
    if q < 0 then E.product [signPower E x, root] else root
  else
    let whole := x.floor + 1
    let denominator := [E.power (num q.den) (num (whole - x)), num (1 / (q.den : Rat) ^ whole.natAbs)]
    if q.num = 1 then E.product denominator
    else E.product (E.power (num q.num) (num x) :: denominator)

/-- The power of zero. -/
def zeroPower (E : Engine) (x : Expr) : Expr :=
  let known := x.facts
  if known.positive then zero
  else if known.negative then infinite
  else if known.value.isSome && !known.real then indeterminate
  else
    let (c, rest) := x.coefficient
    if c < 0 then E.power infinite rest
    else if c = 1 then pow zero x
    else E.power zero rest

/-- The power of the imaginary unit to a number. -/
def unitPower (E : Engine) (x : Rat) : Expr :=
  if x.den = 1 then
    match x.num % 4 with
    | 0 => one
    | 1 => i
    | 2 => minusOne
    | _ => i.neg
  else
    let half := (x / 2).floor
    let root := pow i (num (x - 2 * half))
    if half % 2 = 0 then root else mul (minusOne :: (E.product [root]).factors)

/-- Has the exponent a literal two as its denominator? -/
def isHalf : Expr → Bool
  | num q => q.den = 2
  | _ => false

/-- Is a constant known to lie strictly between `-bound` and `bound`? -/
def isWithin (bound : Float) (e : Expr) : Bool :=
  match e.facts.value with
  | some z => z.isReal && z.re.abs < bound
  | none => false

/-- The sign that appears when the power `(b ^ x) ^ y` is written as `b ^ (x * y)`, where it is known. -/
def powerSign? (E : Engine) (b x y : Expr) : Option (Rat × Expr) :=
  if y.isInt then some (1, b)
  else
    let exponent := x.facts
    if !exponent.real then none
    else
      let isEven := match x with
        | num q => q.den = 1 && q.num % 2 = 0
        | _ => false
      let b' := if isEven && b.facts.real then E.apply .abs b else b
      let base := b'.facts
      if isWithin 1 x || x == one then some (1, b')
      else if base.nonneg then some (1, b')
      else if isWithin 2 x && (match base.value with | some z => 0 ≤ z.re | none => false) then some (1, b')
      else if y.isHalf then
        match base.value, exponent.value, y with
        | some z, some w, num q =>
          let turns := (0.5 - w.re * Float.atan2 z.im z.re / (4 * Float.acos 0)).floor
          some (if (Float.ofInt q.num * turns / 2).floor == Float.ofInt q.num * turns / 2 then 1 else -1, b')
        | _, _, _ => none
      else none

/-- The power of a power. -/
def powerOfPower (E : Engine) (self y : Expr) : Expr :=
  let (b, x) := self.basePower
  if x == minusOne && !y.isInt && y.isHalf && b.facts.negative then
    E.product [E.power minusOne y, E.power b.neg (E.product [x, y])]
  else match powerSign? E b x y with
    | some (sign, b') => E.product [num sign, E.power b' (E.product [x, y])]
    | none => pow self y

/-- The factors of a base, sorted by their sign. -/
structure SignedFactors where
  nonneg : List Expr
  negative : List Expr
  other : List Expr

/-- Sort the factors of a base by their sign; imaginary units count as signs where they pair up. -/
def signedFactors (fs : List Expr) : SignedFactors :=
  let units := fs.countP fun f => match f with | named .i => true | _ => false
  let rest := fs.filter fun f => match f with | named .i => false | _ => true
  let nonneg := rest.filter fun f => f.facts.nonneg
  let negative := rest.filter fun f => !f.facts.nonneg && f.facts.value.isSome
  let negative := negative ++
    rest.filter fun f => !f.facts.nonneg && f.facts.value.isNone && f.facts.negative
  let other := rest.filter fun f => !f.facts.nonneg && f.facts.value.isNone && !f.facts.negative
  let flipped : SignedFactors :=
    match negative.reverse with
    | [] => ⟨nonneg, [minusOne], other⟩
    | f :: fs => ⟨if f == minusOne then nonneg else nonneg ++ [f.neg], fs.reverse, other⟩
  match units % 4 with
  | 0 => ⟨nonneg, negative, other⟩
  | 1 => ⟨nonneg, negative, other ++ [i]⟩
  | 2 => flipped
  | _ => { flipped with other := flipped.other ++ [i] }

/-- Make the negative factors positive: what is then free to leave the base, and what stays. -/
def SignedFactors.free (s : SignedFactors) : List Expr × List Expr :=
  match s.negative with
  | [] => (s.nonneg, s.other)
  | [n] =>
    if s.other.isEmpty then (s.nonneg, [n])
    else if n.isNum && !(n == minusOne) then (s.nonneg ++ [n.neg], s.other ++ [minusOne])
    else (s.nonneg, s.other ++ [n])
  | n :: ns =>
    let (sign, ns) := if s.other.isEmpty && n.isNum then (n, ns) else (one, n :: ns)
    let sign := if ns.length % 2 = 1 then sign.neg else sign
    (s.nonneg ++ ns.map neg, if sign == one then s.other else s.other ++ [sign])

/-- The power of a product: the factors that are not negative leave the base. -/
def splitBase (E : Engine) (fs : List Expr) (x : Expr) : Expr :=
  let (free, stay) := (signedFactors fs).free
  let isRoot : Expr → Bool
    | pow b (num _) => b.isConstant
    | _ => false
  let outside :=
    if x.isNum then (free.filter isRoot).map (fun b => E.power b x) ++
      (free.filter fun b => !isRoot b).map (fun b => pow b x)
    else free.map fun b => pow b x
  if stay.isEmpty then E.product outside
  else if free.isEmpty then pow (E.product stay) x
  else E.product (outside ++ [pow (E.product stay) x])

/-- A sum as a rational number and a rational multiple of the imaginary unit. -/
def complexParts? : List Expr → Option (Rat × Rat)
  | [num r, named .i] => some (r, 1)
  | [num r, mul [num q, named .i]] => some (r, q)
  | _ => none

/-- The base whose logarithm is the denominator of an exponent, with the exponent freed from it. -/
def logarithmExponent? (E : Engine) (b x : Expr) : Option Expr :=
  let target := fn .log b
  let freed (e : Expr) : Option Expr :=
    let denominators := e.factors.filter fun f =>
      match f with
      | pow _ (num q) => q < 0
      | _ => false
    match denominators with
    | [pow t (num q)] =>
      if t == target && q = -1 then
        some (E.product (e.factors.filter fun f => !(f == pow t (num q))))
      else none
    | _ => none
  match x with
  | add ts =>
    let found := ts.filterMap freed
    if found.length = ts.length then some (E.sum found) else none
  | x => freed x

/-- A power of a base that is no number to an exponent other than zero and one. -/
def powerOf (E : Engine) (b x : Expr) : Expr :=
  match b with
  | num q =>
    match x with
    | num r =>
      if q = 0 then (if r < 0 then infinite else zero)
      else if r.den = 1 then num (ratPower q r.num)
      else if q.den = 1 then integerPower E q.num r
      else fractionPower E q r
    | x => if q = 0 then zeroPower E x else pow b x
  | infinite =>
    match x with
    | num r => if r < 0 then zero else infinite
    | x => pow b x
  | named .e => E.apply .exp x
  | named .i =>
    match x with
    | num r => unitPower E r
    | x => pow b x
  | pow _ _ | fn .exp _ => powerOfPower E b x
  | mul fs =>
    match x with
    | num r =>
      -- the second product takes in the factors of the powers that became products themselves
      if r.den = 1 then productOfMany E [E.product (fs.map fun f => pow f x)]
      else splitBase E fs x
    | x => pow b x
  | add ts =>
    match complexParts? ts, x with
    | some (r, q), num y =>
      if y = -1 then mul (num (1 / (r * r + q * q)) :: [E.sum [num r, E.product [num (-q), i]]])
      else pow b x
    | _, _ => pow b x
  | fn .abs a =>
    match x with
    | num r =>
      if r.den = 1 ∧ a.facts.real then
        if r.num % 2 = 0 then E.power a x
        else if r = -1 then pow b x
        else E.product [E.power a (num (r - 1)), b]
      else pow b x
    | x => pow b x
  | b => pow b x

/-- The power of a value. -/
def powerWith (E : Engine) (b x : Expr) : Expr :=
  if x.isInfinite then indeterminate
  else if x == zero then one
  else if x == one then b
  else if x == minusOne && b == zero then infinite
  else
    let signed := x.isInt && b.beginsWithMinus && (b.isNum || (b.isMul && b.isConstant && !b.hasUndefined))
    let odd : Bool := match x with
      | num q => q.num % 2 == 1
      | _ => false
    if signed then (if odd then (E.power b.neg x).neg else E.power b.neg x)
    else if b.isIndeterminate || x.isIndeterminate then indeterminate
    else if b == one then one
    else
      let isAtom : Bool := match x with
        | num _ | named _ | symbol _ => true
        | _ => false
      match if isAtom || b == e then none else logarithmExponent? E b x with
      | some y => E.apply .exp y
      | none => powerOf E b x

end AlgebraTutor.Expr
