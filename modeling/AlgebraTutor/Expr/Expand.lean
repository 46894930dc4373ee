import AlgebraTutor.Expr.Function

/-!
# Expansion

Multiplying a value out: logarithms of products become sums, products and whole powers of sums become sums,
and powers of products and sums of exponents become products, each wherever it holds for all complex values.
-/

namespace AlgebraTutor.Expr

/-! ### One step at one node -/

/-- The logarithm of a value as a sum, where the factors are known to be positive. -/
def expandLogOf (E : Engine) : Nat → Expr → Expr
  | 0, x => E.apply .log x
  | fuel + 1, x =>
    match x with
    | num q =>
      if q.den = 1 then
        match (if 0 < q then Number.perfectPower? q.num.natAbs else none) with
        | some (b, n) => E.product [num n, E.apply .log (num b)]
        | none => E.apply .log x
      else E.difference (E.apply .log (num q.num)) (E.apply .log (num q.den))
    | mul fs =>
      let parts := fs.map fun f =>
        let known := f.facts
        if known.positive then
          (some (match E.apply .log f with
            | fn .log a => expandLogOf E fuel a
            | v => v), none)
        else if known.negative then (some (E.apply .log f.neg), some minusOne)
        else (none, some f)
      E.sum (parts.filterMap (·.1) ++ [E.apply .log (E.product (parts.filterMap (·.2)))])
    | pow _ _ | fn .exp _ =>
      let (b, y) := match x with
        | pow b y => (b, y)
        | x => x.basePower
      let exponent := y.facts
      let small := match exponent.value with
        | some z => z.isReal && -1 < z.re && z.re < 1 + 1e-9
        | none => false
      if exponent.real && (b.facts.positive || small) then
        match E.apply .log b with
        | fn .log a => E.product [y, expandLogOf E fuel a]
        | v => E.product [y, v]
      else E.apply .log x
    | x => E.apply .log x

/-- The logarithm at the root as a sum. -/
def expandLog (E : Engine) : Expr → Expr
  | fn .log x => expandLogOf E 50 x
  | e => e

/-- Multiply two sums term by term. -/
def crossProducts (E : Engine) (as bs : List Expr) : Expr :=
  E.sum (as.flatMap fun a => bs.map fun b => E.product [a, b])

/-- Multiply several sums. -/
def multiplySums (E : Engine) : List (List Expr) → List Expr
  | [] => [one]
  | [ts] => ts
  | ts :: rest => (crossProducts E ts (multiplySums E rest)).terms

/-- The product at the root, multiplied out in the numerator and in the denominator. -/
def expandMulWithin (E : Engine) : Nat → Expr → Expr
  | 0, e => e
  | fuel + 1, e =>
    match e with
    | mul _ =>
      let (n, d) := shallowFraction E e
      let whole := if d.isMul then E.quotient (expandMulWithin E fuel n) (expandMulWithin E fuel d)
        else E.quotient n d
      match whole with
      | mul fs =>
        let sums := fs.filter isAdd
        if sums.isEmpty then whole
        else
          let plain := E.product (fs.filter fun f => !f.isAdd)
          E.sum ((multiplySums E (sums.map terms)).map fun t => E.product [plain, t])
      | e => e
    | e => e

/-- The product at the root, multiplied out. -/
def expandMul (E : Engine) (e : Expr) : Expr :=
  expandMulWithin E 10 e

/-- All ways to write `n` as a sum of `k` natural numbers, with their multinomial coefficients. -/
def multinomials : Nat → Nat → List (List Nat × Nat)
  | 0, n => if n = 0 then [([], 1)] else []
  | 1, n => [([n], 1)]
  | k + 2, n => (List.range (n + 1)).flatMap fun m =>
    (multinomials (k + 1) (n - m)).map fun (rest, c) => (m :: rest, c * choose n m)
where
  /-- The number of ways to choose `m` things out of `n`. -/
  choose (n m : Nat) : Nat :=
    (List.range m).foldl (fun c j => c * (n - j) / (j + 1)) 1

/-- A natural power of a sum. -/
def multinomialPower (E : Engine) (ts : List Expr) (n : Nat) : Expr :=
  E.sum ((multinomials ts.length n).map fun (powers, c) =>
    E.product (num c :: (ts.zip powers).map fun (t, k) => E.power t (num k)))

/-- The power at the root, multiplied out if its base is a sum. -/
def expandMultinomial (E : Engine) : Expr → Expr
  | pow (add ts) (num q) =>
    let size := if q < 0 then -q else q
    let expanded (r : Rat) : Expr :=
      if r.den = 1 then multinomialPower E ts r.num.natAbs
      else
        let whole := r.floor
        let radical := E.power (add ts) (num (r - whole))
        let power := E.power (add ts) (num whole)
        let power := match power with
          | pow (add us) (num s) => multinomialPower E us s.num.natAbs
          | p => p
        E.sum (power.terms.map fun t => E.product [t, radical])
    if size ≤ 1 then pow (add ts) (num q)
    else if q < 0 then E.power (expanded size) minusOne
    else expanded q
  | pow (num b) (add xs) =>
    if b = 0 then pow (num b) (add xs)
    else
      let numbers := xs.filter isNum
      let tail := xs.filter fun x => !x.isNum
      E.product (numbers.map (E.power (num b)) ++ [E.power (num b) (rawAdd tail)])
  | e => e

/-- The power of a product at the root, taken apart. -/
def expandPowerBase (E : Engine) : Expr → Expr
  | pow (mul fs) x =>
    match x with
    | num q => if q.den = 1 then E.product (fs.map fun f => pow f x) else splitBase E fs x
    | x => splitBase E fs x
  | e => e

/-- Are all values known to be at least zero, or all known to be at most zero? -/
def haveOneSign (xs : List Expr) : Bool :=
  xs.all (fun x => x.facts.nonneg) || xs.all fun x => x.neg.facts.nonneg

/-- The power with a sum as its exponent at the root, taken apart. -/
def expandPowerExp (E : Engine) : Expr → Expr
  | pow b (add xs) =>
    if b.facts.nonzero || haveOneSign xs then E.product (xs.map (E.power b)) else pow b (add xs)
  | fn .exp x =>
    match x with
    | add xs => E.product (xs.map (E.apply .exp))
    | x => E.apply .exp x
  | e => e

/-! ### All nodes -/

/-- Build a node again from new parts. -/
def rebuild (E : Engine) (e : Expr) (parts : List Expr) : Expr :=
  match e, parts with
  | add _, ps => E.sum ps
  | mul _, ps => E.product ps
  | pow _ _, [b, x] => E.power b x
  | fn f _, [x] => E.apply f x
  | e, _ => e

/-- The parts of a node. -/
def children : Expr → List Expr
  | add ts => ts
  | mul fs => fs
  | pow b x => [b, x]
  | fn _ x => [x]
  | _ => []

/-- Apply a step at every node, from the leaves upwards; a node is built again only if a part has changed. -/
def everywhere (E : Engine) (step : Expr → Expr) : Nat → Expr → Expr
  | 0, e => e
  | fuel + 1, e =>
    let parts := e.children
    let parts' := parts.map (everywhere E step fuel)
    let changed := compareAll parts parts' != .eq
    step (if changed then rebuild E e parts' else e)

/-- How deep expansion reaches. -/
def expandDepth : Nat := 200

/-- Repeat the steps that may make room for one another until nothing changes. -/
def expandLoop (E : Engine) : Nat → Expr → Expr
  | 0, e => e
  | fuel + 1, e =>
    let multiplied := everywhere E (expandMul E) expandDepth (everywhere E (expandMultinomial E) expandDepth e)
    let e' := everywhere E (expandLog E) expandDepth multiplied
    if e' == e then e else expandLoop E fuel e'

/-- A value multiplied out. -/
def expandWith (E : Engine) (e : Expr) : Expr :=
  let steps := [expandLog E, expandMultinomial E, expandMul E, expandPowerBase E, expandPowerExp E]
  expandLoop E 20 (steps.foldl (fun e step => everywhere E step expandDepth e) e)

/-! ### The operations, tied together -/

/-- The operations, calling one another at most `n` times in a row. -/
def engineWithin : Nat → Engine
  | 0 => .inert
  | n + 1 =>
    let E := engineWithin n
    ⟨sumWith E, productWith E, powerWith E, applyWith E, expandWith E⟩

/-- How often the operations may call one another in a row. -/
def engineDepth : Nat := 120

/-- The operations on values. -/
def engine : Engine :=
  engineWithin engineDepth

end AlgebraTutor.Expr
