import AlgebraTutor.Expr.Facts

/-!
# The order in which a value is written

Factors are written in the order of their keys: numbers, constants, unknowns by name, products and sums, and
functions. The terms of a sum are written in descending order of their monomials over the powers that occur
in it, whatever their coefficients. The same order decides which of a sum and its negative counts as negative.
-/

namespace AlgebraTutor

open Number

/-- The key of a value: its class, its parts, its exponent and its coefficient, compared in this order. -/
inductive SortKey
  | text (s : String)
  | node (rank subrank : Nat) (parts : List SortKey) (exponent : List SortKey) (coefficient : Rat)

namespace SortKey

mutual

/-- The order of keys. -/
def compare : SortKey → SortKey → Ordering
  | text s, text t => Expr.compareText s t
  | text _, node _ _ _ _ _ => .lt
  | node _ _ _ _ _, text _ => .gt
  | node r s ps es c, node r' s' ps' es' c' =>
    (Ord.compare r r').then <| (Ord.compare s s').then <| (Ord.compare ps.length ps'.length).then <|
      (compareAll ps ps').then <| (compareAll es es').then <| Expr.compareRat c c'

/-- The lexicographic order of rows of keys. -/
def compareAll : List SortKey → List SortKey → Ordering
  | [], [] => .eq
  | [], _ :: _ => .lt
  | _ :: _, [] => .gt
  | a :: as, b :: bs => (compare a b).then (compareAll as bs)

end

end SortKey

namespace Expr

/-- The base of the powers that a factor belongs to, and its integer exponent over that base. -/
def decomposePower (e : Expr) : Expr × Int :=
  match e.basePower with
  | (b, num q) =>
    if q.den = 1 then (if q = 1 then e else b, q.num)
    else
      let root := num (mkRat 1 q.den)
      (match b with
        | named .e => fn .exp root
        | _ => pow b root, q.num)
  | (b, x) =>
    let (c, tail) := x.coefficient
    if c = 1 then (e, 1)
    else
      let rest := if c.den = 1 then tail else rawMul (num (mkRat 1 c.den) :: tail.factors)
      (match b with
        | named .e => fn .exp rest
        | _ => pow b rest, c.num)

/-- A term of a sum as a monomial: its approximate coefficient and its powers with integer exponents. -/
structure OrderedTerm where
  term : Expr
  coefficient : ComplexFloat
  powers : List (Expr × Int)

/-- Split a term into its numeric and its other factors. -/
def orderedTerm (term : Expr) : OrderedTerm :=
  let (c, rest) := term.coefficient
  let start : OrderedTerm := ⟨term, .ofReal (Decimal.toFloat c), []⟩
  match rest with
  | num _ => start
  | rest => rest.factors.foldl
      (fun t f => match f.facts.value with
        | some z => { t with coefficient := t.coefficient.mul z }
        | none =>
          let (b, n) := f.decomposePower
          { t with powers := (t.powers.filter fun p => !(p.1 == b)) ++ [(b, n)] })
      start

/-- The exponent of a base in a term. -/
def OrderedTerm.exponent (t : OrderedTerm) (b : Expr) : Int :=
  match t.powers.find? (fun p => p.1 == b) with
  | some p => p.2
  | none => 0

/-- Descending lexicographic order of exponents. -/
def compareExponents : List Int → List Int → Ordering
  | [], [] => .eq
  | [], _ :: _ => .lt
  | _ :: _, [] => .gt
  | m :: ms, n :: ns => (Ord.compare n m).then (compareExponents ms ns)

/-- The order of machine numbers. -/
def compareFloat (x y : Float) : Ordering :=
  if x < y then .lt else if y < x then .gt else .eq

/-- Among terms with equal monomials: real coefficients first, then by imaginary and by real part. -/
def compareCoefficients (a b : ComplexFloat) : Ordering :=
  (Ord.compare (a.im != 0) (b.im != 0)).then <| (compareFloat a.im b.im).then <| compareFloat a.re b.re

/-- Is it a number, or one of the real constants? -/
def isRealConstant : Expr → Bool
  | num _ | named .e | named .pi => true
  | _ => false

/-- A positive number and a negative multiple of a single factor, in this order, whichever comes first. -/
def positiveFirst? (ts : List Expr) : Option (List Expr) :=
  match ts.filter isRealConstant ++ ts.filter (fun t => !t.isRealConstant) with
  | [c, mul [num q, f]] =>
    if c.isRealConstant && c.facts.positive && q < 0 then some [c, mul [num q, f]] else none
  | _ => none

/-- Remove repeated values from a sorted row. -/
def dedup : List Expr → List Expr
  | [] => []
  | [e] => [e]
  | e :: f :: es => if e == f then dedup (f :: es) else e :: dedup (f :: es)

mutual

/-- The key of a value; `fuel` bounds the depth that is looked at. -/
def keyWithin : Nat → Expr → SortKey
  | 0, _ => .text ""
  | _ + 1, num q => .node 1 0 [] [] q
  | fuel + 1, value =>
    let (c, e) := value.coefficient
    let (b, x) := match e with
      | pow b x => (b, x)
      | e => (e, one)
    let exponent := [keyWithin fuel x]
    match b with
    | num q => .node 1 0 [.text (if q.den = 1 then toString q.num else toString q.num ++ "/" ++ toString q.den)]
        exponent c
    | infinite => .node 2 0 [.text "zoo"] exponent c
    | indeterminate => .node 1 1 [.text "nan"] exponent c
    | named k => .node 2 (k.rank + 1) [.text ""] exponent c
    | symbol name => .node 2 4 [.text name] exponent c
    | mul fs => .node 3 0 (sortedKeys fuel fs) exponent c
    | add ts => .node 3 1 ((orderTermsWithin fuel ts).map (keyWithin fuel)) exponent c
    | pow b x => .node 3 2 [keyWithin fuel b, keyWithin fuel x] exponent c
    | fn f x => .node 4 f.rank [keyWithin fuel x] exponent c

/-- The keys of several values, in increasing order. -/
def sortedKeys : Nat → List Expr → List SortKey
  | 0, _ => []
  | fuel + 1, es => (es.map (keyWithin fuel)).mergeSort fun a b => SortKey.compare a b != .gt

/-- The terms of a sum in the order in which they are written. -/
def orderTermsWithin : Nat → List Expr → List Expr
  | 0, ts => ts
  | fuel + 1, ts =>
    match positiveFirst? ts with
    | some ordered => ordered
    | none =>
      let rows := ts.map orderedTerm
      let bases := dedup (sort (rows.flatMap fun r => r.powers.map (·.1)))
      let keyed := (bases.map fun b => (b, keyWithin fuel b)).mergeSort fun a b =>
        SortKey.compare a.2 b.2 != .gt
      let vectors := rows.map fun r => (r, keyed.map fun b => r.exponent b.1)
      let ordered := vectors.mergeSort fun a b =>
        ((compareExponents a.2 b.2).then (compareCoefficients a.1.coefficient b.1.coefficient)) != .gt
      ordered.map fun r => r.1.term

end

/-- How deep keys look. -/
def keyDepth : Nat := 200

/-- The key of a value. -/
def key (e : Expr) : SortKey :=
  keyWithin keyDepth e

/-- The terms of a value in the order in which they are written. -/
def orderedTerms : Expr → List Expr
  | add ts => orderTermsWithin keyDepth ts
  | e => [e]

/-- The factors of a value in the order in which they are written. -/
def orderedFactors (e : Expr) : List Expr :=
  ((e.factors.map fun f => (f, f.key)).mergeSort fun a b => SortKey.compare a.2 b.2 != .gt).map (·.1)

/-- Does a value that is no sum begin with a minus? -/
def beginsWithMinus : Expr → Bool
  | num q => q < 0
  | mul (num q :: _) => q < 0
  | _ => false

/-- Does a value count as the negative of a simpler one? Of a sum with as many negative terms as positive
ones, the one with the lesser key does. -/
def isMinus : Expr → Bool
  | add ts =>
    let negative := (ts.filter beginsWithMinus).length
    let positive := ts.length - negative
    if negative < positive then false
    else if positive < negative then true
    else SortKey.compare (add ts).key (neg (add ts)).key == .lt
  | e => e.beginsWithMinus

end Expr

end AlgebraTutor
