import AlgebraTutor.Expr.OfTree
import AlgebraTutor.Polynomial.Nested

/-!
# Cancelling common factors

A value as a quotient of two polynomials in its generators (unknowns, radicals, exponentials, functions)
without a common divisor, the denominator with a positive leading coefficient. Generators count as
independent of one another.
-/

namespace AlgebraTutor.Expr

/-! ### Common factors inside radicals and functions -/

/-- The powers that a term is made of, without its number. -/
def termPowers (t : Expr) : List (Expr × Int) :=
  match t.coefficient.2 with
  | num _ => []
  | part => part.factors.map decomposePower

/-- The powers that two rows of powers have in common. -/
def commonPowers (ps qs : List (Expr × Int)) : List (Expr × Int) :=
  ps.filterMap fun (b, m) =>
    match qs.find? fun q => q.1 == b with
    | some (_, n) =>
      if (0 : Int) < m ∧ (0 : Int) < n then some (b, min m n)
      else if m < (0 : Int) ∧ n < (0 : Int) then some (b, max m n)
      else none
    | none => none

/-- Take the common powers out of a sum. -/
def factorSum (E : Engine) (ts : List Expr) : Expr :=
  match ts.map termPowers with
  | [] => rawAdd ts
  | p :: ps =>
    match ps.foldl commonPowers p with
    | [] => rawAdd ts
    | common =>
      let factors := common.map fun c => E.power c.1 (num c.2)
      let inverse := common.map fun c => E.power c.1 (num (-c.2))
      E.product (factors ++ [E.sum (ts.map fun t => E.product (t :: inverse))])

/-- The content of a sum that may leave it: a fraction only if no coefficient is an integer. -/
def clearContent (ts : List Expr) : Rat × List Expr :=
  let (content, divided) := primitive ts
  if content.den = 1 then (content, divided)
  else
    let scaled : List Rat := divided.map fun t => t.coefficient.1 / (content.den : Rat)
    if scaled.any fun c => c.den = 1 then
      (content.num, sort (divided.map fun t =>
        let (q, part) := t.coefficient
        let q : Rat := q / (content.den : Rat)
        match part with
        | num _ => num q
        | part => if q = 1 then part else mul (num q :: part.factors)))
    else (content, divided)

mutual

/-- A value with the common factors of its sums taken out; `fuel` bounds the depth. -/
def factorTerms (E : Engine) : Nat → Expr → Expr
  | 0, e => e
  | fuel + 1, e =>
    match e with
    | add ts =>
      let (content, divided) := clearContent ts
      let inner := factorAll E fuel divided
      if inner.all beginsWithMinus then
        E.keepCoefficient (-content) (factorSum E (inner.map neg))
      else E.keepCoefficient content (factorSum E inner)
    | mul fs => E.product (factorAll E fuel fs)
    | e =>
      let parts := factorAll E fuel e.children
      if compareAll parts e.children == .eq then e else rebuild E e parts

/-- Several values with the common factors of their sums taken out. -/
def factorAll (E : Engine) : Nat → List Expr → List Expr
  | 0, es => es
  | fuel + 1, es => es.map (factorTerms E fuel)

end

/-- How deep common factors are taken out. -/
def factorDepth : Nat := 200

/-! ### Generators -/

mutual

/-- The plain spelling of a value by which generators are sorted. -/
def spell : Nat → Expr → String
  | 0, _ => ""
  | fuel + 1, e =>
    match e with
    | num q => if q.den = 1 then toString q.num else toString q.num ++ "/" ++ toString q.den
    | infinite => "zoo"
    | indeterminate => "nan"
    | named .e => "E"
    | named .i => "I"
    | named .pi => "pi"
    | symbol name => name
    | fn f x => f.name ++ "(" ++ spell fuel x ++ ")"
    | add _ => spellTerms fuel e.orderedTerms
    | mul _ => spellFactors fuel (e.coefficient.1, e.coefficient.2.orderedFactors)
    | pow b x =>
      if x == half then "sqrt(" ++ spell fuel b ++ ")"
      else if x == minusOne then "1/" ++ spellPart fuel b
      else spellPart fuel b ++ "**" ++ spellPart fuel x

/-- The spelling of a part of a power or a product, in parentheses if it is no atom. -/
def spellPart : Nat → Expr → String
  | 0, _ => ""
  | fuel + 1, e =>
    match e with
    | num q => if q.den = 1 ∧ 0 ≤ q then spell fuel e else "(" ++ spell fuel e ++ ")"
    | add _ | mul _ | pow _ _ => "(" ++ spell fuel e ++ ")"
    | e => spell fuel e

/-- The spelling of a sum. -/
def spellTerms : Nat → List Expr → String
  | 0, _ => ""
  | fuel + 1, ts =>
    match ts with
    | [] => "0"
    | t :: ts => ts.foldl
      (fun s t => s ++ (if t.beginsWithMinus then " - " ++ spell fuel t.neg else " + " ++ spell fuel t))
      (spell fuel t)

/-- The spelling of a product. -/
def spellFactors : Nat → Rat × List Expr → String
  | 0, _ => ""
  | fuel + 1, (c, fs) =>
    let body := "*".intercalate (fs.map fun f =>
      match f with
      | pow _ _ => spell fuel f
      | f => spellPart fuel f)
    if c = 1 then body
    else if c = -1 then "-" ++ body
    else if c.den = 1 then toString c.num ++ "*" ++ body
    else toString c.num ++ "*" ++ body ++ "/" ++ toString c.den

end

/-- The place of a generator: `x` to `z`, then `p` to `w`, then `a` to `o`, then all others. -/
def generatorRank (spelling : String) : Nat :=
  match spelling.toList with
  | [c] =>
    if 'x' ≤ c ∧ c ≤ 'z' then 124 + (c.toNat - 'x'.toNat)
    else if 'p' ≤ c ∧ c ≤ 'w' then 216 + (c.toNat - 'p'.toNat)
    else if 'a' ≤ c ∧ c ≤ 'o' then 301 + (c.toNat - 'a'.toNat)
    else 1000
  | _ => 1000

/-- A generator with its spelling. -/
structure Generator where
  value : Expr
  spelling : String

/-- The order of generators. -/
def Generator.compare (a b : Generator) : Ordering :=
  (Ord.compare (generatorRank a.spelling) (generatorRank b.spelling)).then (compareText a.spelling b.spelling)

/-- The generator that a factor is a power of, with a positive exponent. -/
def generatorPower (E : Engine) (f : Expr) : Expr × Nat :=
  let (b, n) := f.decomposePower
  if n < 0 then (E.power b minusOne, n.natAbs) else (b, n.natAbs)

/-- A term as a coefficient and powers of generators. -/
def splitTerm (E : Engine) (t : Expr) : Rat × List (Expr × Nat) :=
  match t with
  | num q => (q, [])
  | t =>
    let (c, part) := t.coefficient
    (c, part.factors.map (generatorPower E))

/-- The exponent of a generator in a row of powers. -/
def exponentOf (g : Expr) (powers : List (Expr × Nat)) : Nat :=
  powers.foldl (fun n p => if p.1 == g then n + p.2 else n) 0

/-- The common denominator of the coefficients of terms. -/
def commonDenominator (ts : List (Rat × List (Expr × Nat))) : Nat :=
  ts.foldl (fun l t => Nat.lcm l t.1.den) 1

/-- Terms as a polynomial in generators, with coefficients multiplied by `scale`. -/
def toNested (gens : List Generator) (scale : Nat) (ts : List (Rat × List (Expr × Nat))) :
    Nested gens.length :=
  ts.foldl
    (fun p t => Nested.add gens.length p
      (Nested.term gens.length (gens.map fun g => exponentOf g.value t.2) (t.1 * (scale : Rat)).num))
    (Nested.zero gens.length)

/-- A polynomial in generators as a value, with coefficients multiplied by `scale`. -/
def ofNested (E : Engine) (gens : List Generator) (scale : Rat) (p : Nested gens.length) : Expr :=
  E.sum ((Nested.terms gens.length p).map fun t =>
    E.product (num (scale * t.2) :: (gens.zip t.1).map fun g => E.power g.1.value (num g.2)))

/-- The quotient of two polynomials in generators in lowest terms. -/
def lowestTerms (E : Engine) (gens : List Generator) (ps qs : List (Rat × List (Expr × Nat))) : Expr :=
  let n := gens.length
  let ds := commonDenominator ps
  let dt := commonDenominator qs
  let f := toNested gens ds ps
  let g := toNested gens dt qs
  if Nested.isZero n f then zero
  else if Nested.isZero n g then infinite
  else
    let h := Nested.gcd n f g
    let p := (Nested.divide? n f h).getD f
    let q := (Nested.divide? n g h).getD g
    let common := Nat.gcd dt ds
    let sign : Rat := if Nested.leading n q < 0 then -1 else 1
    E.quotient (ofNested E gens (sign * (dt / common : Nat)) p) (ofNested E gens (sign * (ds / common : Nat)) q)

/-- A value as a quotient in lowest terms. -/
def cancel (E : Engine) (e : Expr) : Expr :=
  match e with
  | num _ => e
  | e =>
    let factored := factorTerms E factorDepth e
    let (p, q) := asFraction E factored
    let ps := (E.expand p).terms.map (splitTerm E)
    let qs := (E.expand q).terms.map (splitTerm E)
    let values := dedup (sort ((ps ++ qs).flatMap fun t => t.2.map (·.1)))
    match values with
    | [] => E.expand factored
    | values =>
      let gens := (values.map fun v => (⟨v, spell 100 v⟩ : Generator)).mergeSort
        fun a b => a.compare b != .gt
      lowestTerms E gens ps qs

/-- The normal form of a value: in lowest terms, and multiplied out. -/
def normalForm (E : Engine) (e : Expr) : Expr :=
  E.expand (cancel E e)

end AlgebraTutor.Expr
