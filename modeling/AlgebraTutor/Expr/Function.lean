import AlgebraTutor.Expr.Fraction

/-!
# Functions

The values of functions that are known exactly: logarithms and exponentials that undo each other, the
trigonometric functions at multiples of `pi`, odd and even functions at negative values, and absolute values
of what has a known sign.
-/

namespace AlgebraTutor.Expr

/-- Remove one of the factors that a value has. -/
def withoutFactor? (f e : Expr) : Option Expr :=
  if e == f then some one
  else match e with
    | mul fs => if fs.any (· == f) then some (rawMul (fs.filter fun g => !(g == f))) else none
    | _ => none

/-- A value as a multiple of the imaginary unit: what is left of it without that factor. -/
def imaginaryPart? (e : Expr) : Option Expr :=
  match e with
  | add ts =>
    let parts := ts.filterMap (withoutFactor? i)
    if parts.length = ts.length then some (rawAdd (sort parts)) else none
  | e => withoutFactor? i e

/-- The rational multiple of `pi` that a value is. -/
def piMultiple? (e : Expr) : Option Rat :=
  (withoutFactor? pi e).bind rat?

/-- The remainder of a rational modulo a positive one. -/
def ratMod (q m : Rat) : Rat :=
  q - m * (q / m).floor

/-- A sum as a rest and a multiple of half turns: what is left of it, and the number of half turns of `pi / 2`
taken out, as a multiple of `pi`. -/
def peelHalfTurns (E : Engine) (ts : List Expr) : Expr × Rat :=
  let turns := ts.foldl (fun q t => match piMultiple? t with | some r => q + r | none => q) 0
  if turns = 0 then (add ts, 0)
  else
    let rest := ts.filter fun t => (piMultiple? t).isNone
    let small := ratMod turns (1 / 2)
    (E.sum (rest ++ [E.product [num small, pi]]), turns - small)

/-! ### Exponential and logarithm -/

/-- The exponential of a product: a multiple of `pi * i`, or a multiple of a logarithm. -/
def expOfProduct (E : Engine) (x : Expr) : Expr :=
  match ((withoutFactor? i x).bind (withoutFactor? pi)).bind rat? with
  | some q =>
    if q.den = 1 then num (if q.num % 2 = 0 then 1 else -1)
    else if q.den = 2 then (if ratMod q 2 = 1 / 2 then i else i.neg)
    else
      let r := ratMod q 2
      let r := if 1 < r then r - 2 else r
      if r = q then fn .exp x else E.apply .exp (E.product [num r, pi, i])
  | none =>
    let isLog : Expr → Bool
      | fn .log _ => true
      | _ => false
    match x.factors.filter isLog with
    | [fn .log a] =>
      let others := x.factors.filter fun f => !isLog f
      if others.all fun f => f.facts.real && f.facts.value.isSome then E.power a (E.product others)
      else fn .exp x
    | _ => fn .exp x

/-- The exponential of a sum: the terms with a value of their own become factors. -/
def expOfSum (E : Engine) (ts : List Expr) : Expr :=
  let parts := ts.map fun t =>
    if t == one then (t, none)
    else match E.apply .exp t with
      | fn .exp a => (a, none)
      | v => (t, some v)
  let outside := parts.filterMap (·.2)
  let inside := parts.filterMap fun p => if p.2.isNone then some p.1 else none
  if outside.isEmpty then fn .exp (add ts)
  else E.product [E.product outside, fn .exp (E.sum inside)]

/-- The exponential of a value. -/
def expOf (E : Engine) (x : Expr) : Expr :=
  match x with
  | num q => if q = 0 then one else if q = 1 then e else fn .exp x
  | infinite => indeterminate
  | fn .log a => a
  | mul _ => expOfProduct E x
  | add ts => expOfSum E ts
  | x => fn .exp x

/-- The logarithm of a value. -/
def logOf (E : Engine) (x : Expr) : Expr :=
  let known := x.facts
  let otherwise (x : Expr) : Expr :=
    if x.isConstant && known.negative then E.sum [E.product [pi, i], E.apply .log x.neg]
    else match (if x.isAdd then none else (imaginaryPart? x).bind rat?) with
      | some q =>
        if 0 ≤ q then E.sum [E.product [half, pi, i], E.apply .log (num q)]
        else E.sum [E.product [num (-1 / 2), pi, i], E.apply .log (num (-q))]
      | none => fn .log x
  match x with
  | num q =>
    if q = 0 then infinite
    else if q = 1 then zero
    else if q.num = 1 then (E.apply .log (num q.den)).neg
    else otherwise x
  | infinite => infinite
  | named .e => one
  | fn .exp a => if a.facts.real then a else otherwise x
  | x => otherwise x

/-- How often an integer of at least two divides another: `none` where the question has no answer. -/
def multiplicity? (d n : Int) : Option Nat :=
  if d < 2 ∨ n = 0 then none else some (Number.multiplicity d.natAbs n.natAbs).1

/-- The power of the base that a logarithm takes out of its argument. -/
def basePowers? (b a : Expr) : Option Int :=
  match b, a with
  | num p, num q =>
    if p.den = 1 ∧ q.den = 1 then (multiplicity? p.num q.num).map Int.ofNat
    else if p.den = 1 then
      if q.num = 1 then (multiplicity? p.num q.den).map fun m => -(m : Int)
      else (multiplicity? p.num q.num).bind fun m => (multiplicity? p.num q.den).map fun k => (m : Int) - k
    else if p.num = 1 then (multiplicity? p.den q.den).map Int.ofNat
    else
      (multiplicity? p.num q.num).bind fun a => (multiplicity? p.den q.den).bind fun b =>
        (multiplicity? p.den q.num).bind fun c => (multiplicity? p.num q.den).map fun d =>
          (min a b : Int) - min c d
  | _, _ => none

/-- The logarithm of a value to a base. -/
def logOfBase (E : Engine) (x b : Expr) : Expr :=
  if b == one then (if x == one then indeterminate else infinite)
  else match basePowers? b x with
    | some n =>
      if n = 0 then E.quotient (E.apply .log x) (E.apply .log b)
      else E.sum [num n, E.quotient (E.apply .log (E.quotient x (E.power b (num n)))) (E.apply .log b)]
    | none => if b == e then E.apply .log x else E.quotient (E.apply .log x) (E.apply .log b)

/-! ### Trigonometric functions -/

/-- Splits of an angle `pi / n` into a difference of two simpler ones. -/
def angleSplit? : Nat → Option (Nat × Nat)
  | 12 => some (3, 4)
  | 15 => some (6, 10)
  | 20 => some (4, 5)
  | 24 => some (6, 8)
  | 30 => some (5, 6)
  | 40 => some (8, 10)
  | 60 => some (20, 30)
  | 120 => some (40, 60)
  | _ => none

/-- The angle that is a rational multiple of `pi`. -/
def angle (E : Engine) (q : Rat) : Expr :=
  E.product [num q, pi]

/-- The cosine of a rational multiple of `pi`, if it has a value in radicals of little depth. -/
def cosOfAngle (E : Engine) (q : Rat) (x : Expr) : Expr :=
  let q := ratMod q 2
  if q.den = 1 then num (if q.num % 2 = 0 then 1 else -1)
  else if q.den = 2 then zero
  else if 1 < q then (E.apply .cos (angle E (q - 1))).neg
  else if 1 / 2 < q then (E.apply .cos (angle E (1 - q))).neg
  else
    let p := q.num
    match angleSplit? q.den with
    | some (m, n) =>
      let a := mkRat p m
      let b := mkRat p n
      E.sum [E.product [E.apply .cos (angle E a), E.apply .cos (angle E b)],
        E.product [E.apply .cos (angle E (1 / 2 - a)), E.apply .cos (angle E (1 / 2 - b))]]
    | none =>
      if 12 < q.den then fn .cos x
      else if q.den = 3 then half
      else if q.den = 5 then
        let root := E.product [num (1 / 4), E.sqrt (num 5)]
        if p = 1 then E.sum [num (1 / 4), root] else E.sum [num (-1 / 4), root]
      else if q.den % 2 = 0 then
        let double := E.apply .cos (angle E (2 * q))
        E.sqrt (E.product [half, E.sum [one, double]])
      else fn .cos x

/-- The cosine of a value. -/
def cosOf (E : Engine) (x : Expr) : Expr :=
  if x == zero then one
  else if x.isInfinite then indeterminate
  else if x.isMinus then E.apply .cos x.neg
  else match imaginaryPart? x with
    | some y => E.apply .cosh y
    | none =>
      match piMultiple? x with
      | some q => cosOfAngle E q x
      | none =>
        match x with
        | add ts =>
          let (rest, turns) := peelHalfTurns E ts
          if turns = 0 then fn .cos x
          else E.difference (E.product [E.apply .cos (angle E turns), E.apply .cos rest])
            (E.product [E.apply .sin (angle E turns), E.apply .sin rest])
        | x => fn .cos x

/-- The sine of a rational multiple of `pi`, as a cosine. -/
def sinOfAngle (E : Engine) (q : Rat) (x : Expr) : Expr :=
  let r := ratMod q 2
  if r.den = 1 then zero
  else if r.den = 2 then num (if r = 1 / 2 then 1 else -1)
  else if 1 < r then (E.apply .sin (angle E (r - 1))).neg
  else if 1 / 2 < r then E.apply .sin (angle E (1 - r))
  else match E.apply .cos (angle E (ratMod (r + 3 / 2) 2)) with
    | fn .cos _ => if r = q then fn .sin x else E.apply .sin (angle E r)
    | v => v

/-- The sine of a value. -/
def sinOf (E : Engine) (x : Expr) : Expr :=
  if x == zero then zero
  else if x.isInfinite then indeterminate
  else if x.isMinus then (E.apply .sin x.neg).neg
  else match imaginaryPart? x with
    | some y => E.product [i, E.apply .sinh y]
    | none =>
      match piMultiple? x with
      | some q => sinOfAngle E q x
      | none =>
        match x with
        | add ts =>
          let (rest, turns) := peelHalfTurns E ts
          if turns = 0 then fn .sin x
          else E.sum [E.product [E.apply .sin (angle E turns), E.apply .cos rest],
            E.product [E.apply .cos (angle E turns), E.apply .sin rest]]
        | x => fn .sin x

/-- Is it a cosine that has no other value? -/
def isCos : Expr → Bool
  | fn .cos _ => true
  | _ => false

/-- The tangents of `pi / 10`, `2 * pi / 10`, … `4 * pi / 10`. -/
def tanOfTenth (E : Engine) (n : Int) : Expr :=
  let root := E.sqrt (num 5)
  match n with
  | 1 => E.sqrt (E.sum [one, E.product [num (-2 / 5), root]])
  | 2 => E.sqrt (E.sum [num 5, E.product [num (-2), root]])
  | 3 => E.sqrt (E.sum [one, E.product [num (2 / 5), root]])
  | _ => E.sqrt (E.sum [num 5, E.product [num 2, root]])

/-- The tangent of a rational multiple of `pi`. -/
def tanOfAngle (E : Engine) (q : Rat) (x : Expr) : Expr :=
  let r := ratMod q 1
  if r.den = 1 then zero
  else if r.den = 5 ∨ r.den = 10 then
    let n := (10 * r).num
    if 5 < n then (tanOfTenth E (10 - n)).neg else tanOfTenth E n
  else
    let double := angle E (2 * ratMod q 2)
    let c2 := E.apply .cos double
    let s2 := E.apply .cos (E.sum [double, E.product [num (-1 / 2), pi]])
    if r.den % 2 = 0 && !c2.isCos && !s2.isCos then
      if s2 == zero then infinite
      else E.difference (E.power s2 minusOne) (E.quotient c2 s2)
    else match angleSplit? r.den with
      | some (m, n) =>
        let a := E.apply .tan (angle E (mkRat r.num m))
        let b := E.apply .tan (angle E (mkRat r.num n))
        E.quotient (E.difference a b) (E.sum [one, E.product [a, b]])
      | none =>
        let near := ratMod (r + 1 / 2) 1 - 1 / 2
        let c := E.apply .cos (angle E near)
        let s := E.apply .cos (E.sum [angle E near, E.product [num (-1 / 2), pi]])
        if !c.isCos && !s.isCos then (if c == zero then infinite else E.quotient s c)
        else if near = q then fn .tan x
        else E.apply .tan (angle E near)

/-- The tangent of a value. -/
def tanOf (E : Engine) (x : Expr) : Expr :=
  if x == zero then zero
  else if x.isInfinite then indeterminate
  else if x.isMinus then (E.apply .tan x.neg).neg
  else match imaginaryPart? x with
    | some y => E.product [i, E.apply .tanh y]
    | none =>
      match piMultiple? x with
      | some q => tanOfAngle E q x
      | none =>
        match x with
        | add ts =>
          let (rest, turns) := peelHalfTurns E ts
          if turns = 0 then fn .tan x
          else if (E.apply .tan (angle E turns)).isInfinite then (E.apply .cot rest).neg
          else E.apply .tan rest
        | x => fn .tan x

/-- The cotangent of a value. -/
def cotOf (E : Engine) (x : Expr) : Expr :=
  if x == zero then infinite
  else if x.isInfinite then indeterminate
  else if x.isMinus then (E.apply .cot x.neg).neg
  else fn .cot x

/-! ### Hyperbolic functions -/

/-- The hyperbolic sine, cosine or tangent of a value. -/
def hyperbolicOf (E : Engine) (f : Func) (x : Expr) : Expr :=
  if x == zero then (if f = .cosh then one else zero)
  else if x.isInfinite then indeterminate
  else match imaginaryPart? x with
    | some y =>
      match f with
      | .sinh => E.product [i, E.apply .sin y]
      | .cosh => E.apply .cos y
      | _ => E.product [i, E.apply .tan y]
    | none =>
      if x.isMinus then
        let v := E.apply f x.neg
        if f = .cosh then v else v.neg
      else fn f x

/-! ### Parts and absolute values of complex numbers -/

/-- The real part of a value, taken term by term. -/
def reOf (E : Engine) (x : Expr) : Expr :=
  if x.hasUndefined then indeterminate
  else
    let parts := x.terms.map fun t =>
      if t.facts.real then t
      else match imaginaryPart? t with
        | some y => if y.facts.real then zero else (E.apply .im y).neg
        | none =>
          let (c, part) := t.coefficient
          E.product [num c, fn .re part]
    E.sum parts

/-- The imaginary part of a value, taken term by term. -/
def imOf (E : Engine) (x : Expr) : Expr :=
  if x.hasUndefined then indeterminate
  else
    let parts := x.terms.map fun t =>
      if t.facts.real then zero
      else match imaginaryPart? t with
        | some y => if y.facts.real then y else E.apply .re y
        | none =>
          let (c, part) := t.coefficient
          E.product [num c, fn .im part]
    E.sum parts

mutual

/-- A value in which no sum, as a factor or the base of a whole power, counts as negative. -/
def settleSigns (E : Engine) : Nat → Expr → Expr
  | 0, e => e
  | fuel + 1, e =>
    match e with
    | add ts => if e.isMinus then mul [minusOne, e.neg] else add ts
    | mul fs => E.product (settleAll E fuel fs)
    | pow b x => if x.isInt then E.power (settleSigns E fuel b) x else pow b x
    | e => e

/-- Several values in which no sum counts as negative. -/
def settleAll (E : Engine) : Nat → List Expr → List Expr
  | 0, es => es
  | fuel + 1, es => es.map (settleSigns E fuel)

end

mutual

/-- A value with the imaginary unit replaced by its negative. -/
def conjugate (E : Engine) : Nat → Expr → Expr
  | 0, e => e
  | fuel + 1, e =>
    match e with
    | named .i => i.neg
    | add ts => E.sum (conjugateAll E fuel ts)
    | mul fs => E.product (conjugateAll E fuel fs)
    | pow (num q) x =>
      if q = -1 then E.power (num q) x.neg else if q < 0 then E.product [E.power (num q) x, E.power minusOne
        (E.product [num (-2), x])] else pow (num q) x
    | pow b x => if x.isInt then E.power (conjugate E fuel b) x else pow b x
    | fn f x => E.apply f (conjugate E fuel x)
    | e => e

/-- Several values with the imaginary unit replaced by its negative. -/
def conjugateAll (E : Engine) : Nat → List Expr → List Expr
  | 0, es => es
  | fuel + 1, es => es.map (conjugate E fuel)

end

/-- Is it an absolute value that has no other form? -/
def isAbs : Expr → Bool
  | fn .abs _ => true
  | _ => false

/-- The absolute value of a factor: what it is where that is known, or the factor to be kept inside. -/
def absOfFactor (E : Engine) (f : Expr) : Option Expr :=
  match f with
  | pow b (num q) =>
    if q.den = 1 ∧ q < 0 then
      let v := E.apply .abs b
      if v.isAbs then none else some (E.power v (num q))
    else known (E.apply .abs f)
  | f => known (E.apply .abs f)
where
  /-- Nothing, if the absolute value has no other form. -/
  known (v : Expr) : Option Expr :=
    if v.isAbs then none else some v

/-- The absolute value of a value that is neither a product nor a power. -/
def absOfAtom (E : Engine) (x : Expr) : Expr :=
  let known := x.facts
  if x == zero then zero
  else if known.nonneg then x
  else if known.negative then x.neg
  else if known.real then fn .abs x
  else match known.value with
    | some _ =>
      match imaginaryPart? x with
      | some y => E.apply .abs y
      | none => E.sqrt (E.expand (E.product [x, conjugate E 50 x]))
    | none => fn .abs x

/-- The absolute value of a value. -/
def absOf (E : Engine) (x : Expr) : Expr :=
  match x with
  | num q => num (if q < 0 then -q else q)
  | infinite => infinite
  | indeterminate => indeterminate
  | named .i => one
  | named _ => x
  | x =>
    let x := settleSigns E 50 x
    let (n, d) := asFraction E x
    if d.hasSymbol && !n.hasSymbol then E.quotient (E.apply .abs n) (E.apply .abs d)
    else match x with
      | mul fs =>
        let outside := fs.filterMap (absOfFactor E)
        let inside := fs.filter fun f => (absOfFactor E f).isNone
        if inside.isEmpty then E.product outside
        else E.product [E.product outside, fn .abs (E.product inside)]
      | pow _ _ =>
        let (b, y) := x.basePower
        let known := b.facts
        if known.real then
          if y.isInt then
            match y with
            | num q =>
              if q.num % 2 = 0 then x
              else if b == minusOne then one
              else E.power (E.apply .abs b) y
            | _ => fn .abs x
          else if known.nonneg then E.power b (E.apply .re y)
          else if known.negative then
            E.product [E.power b.neg (E.apply .re y),
              E.apply .exp (E.product [num (-1), pi, E.apply .im y])]
          else fn .abs x
        else absOfAtom E x
      | fn .exp a => E.apply .exp (E.apply .re a)
      | x => absOfAtom E x

/-- The value of a function. -/
def applyWith (E : Engine) (f : Func) (x : Expr) : Expr :=
  if x.isIndeterminate then indeterminate
  else match f with
    | .exp => expOf E x
    | .log => logOf E x
    | .sin => sinOf E x
    | .cos => cosOf E x
    | .tan => tanOf E x
    | .cot => cotOf E x
    | .sinh | .cosh | .tanh => hyperbolicOf E f x
    | .re => reOf E x
    | .im => imOf E x
    | .abs => absOf E x

end AlgebraTutor.Expr
