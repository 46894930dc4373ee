import AlgebraTutor.Expr.Sample
import AlgebraTutor.Polynomial.OfTree
import AlgebraTutor.Reader.Expression
import AlgebraTutor.Tree.Terms

/-!
# Ordering the terms of a sum

The terms of a sum, those with an unknown first, by the name of their unknown and then by descending power,
and then the constants by their value. Terms with equal keys keep their order.
-/

namespace AlgebraTutor

/-- What decides the place of a term. -/
structure TermKey where
  isConstant : Bool
  unknown : String
  descent : Rat
  value : Rat
deriving Repr, DecidableEq

/-- Does a key come before another one, or at the same place? Keys are compared field by field. -/
def TermKey.le (a b : TermKey) : Bool :=
  if a.isConstant != b.isConstant then b.isConstant
  else if a.unknown ≠ b.unknown then a.unknown < b.unknown
  else if a.descent ≠ b.descent then a.descent < b.descent
  else a.value ≤ b.value

namespace Tree

/-- The value of a constant tree as a double, and zero where it has none. -/
def constantValue (t : Tree) : Answer Rat :=
  match t.polynomial?.bind Polynomial.constant? with
  | some c =>
    if Nat.pow 10 digitLimit ≤ c.num.natAbs ∨ Nat.pow 10 digitLimit ≤ c.den then .error .digitLimit
    else .ok ((Decimal.nearestValue? c).getD 0)
  | none =>
    match t.sample [] with
    | .ok samples => .ok ((samples.numbers.head?.bind Decimal.ofFloat?).getD 0)
    | .error failure => if failure.isArithmetic then .ok 0 else .error failure

/-- The value of an exponent as a double. -/
def exponentValue (q : Rat) : Answer Rat :=
  match Decimal.nearestValue? q with
  | some v => .ok v
  | none => .error .floatRange

/-- A term filed under its own text. -/
def filedByText (t : Tree) : Answer (String × Rat) := do
  let text ← t.text
  return (text, 1)

/-- The unknown that a term is filed under, and its power: those of the first factor of a product that has an
unknown. A term of another shape is filed under its text, but a factor without an unknown not at all. -/
def filing? (isFactor : Bool) : Tree → Answer (Option (String × Rat))
  | .paren content => filing? isFactor content
  | .apply .mul [left, right] => do
    match ← filing? true left with
    | some found => return some found
    | none =>
      match ← filing? true right with
      | some found => return some found
      | none => if isFactor then return none else some <$> filedByText (.apply .mul [left, right])
  | .symbol name => if isFactor && isNamedConstant name then return none else return some (name, 1)
  | .apply .pow [base, exponent] =>
    if isFactor && (apply .pow [base, exponent]).isConstant then return none
    else match base.stripParens, exponent.stripParens with
      | .symbol name, .const q => do
        let power ← exponentValue q
        return some (name, power)
      | _, _ => some <$> filedByText (.apply .pow [base, exponent])
  | .apply .sub [t] => if isFactor && t.isConstant then return none else filing? false t
  | .apply .div [left, right] =>
    if left.isConstant then
      if right.isConstant then
        if isFactor then return none else some <$> filedByText (.apply .div [left, right])
      else filing? false right
    else filing? false left
  | t => if isFactor && t.isConstant then return none else some <$> filedByText t

/-- The unknown that a term is filed under, and its power. -/
def unknownAndPower (t : Tree) : Answer (String × Rat) := do
  match ← filing? false t with
  | some found => return found
  | none => filedByText t

/-- The key of a term with a sign. -/
def termKey (term : Term) : Answer TermKey := do
  let t := term.1.stripParens
  if t.isConstant then
    let value ← t.constantValue
    return ⟨true, "", 0, term.2.toInt * value⟩
  else
    let (unknown, power) ← t.unknownAndPower
    return ⟨false, unknown, -power, 0⟩

/-- The terms with their keys. -/
def keyTerms : List Term → Answer (List (TermKey × Term))
  | [] => .ok []
  | term :: rest => do
    let key ← termKey term
    let keyed ← keyTerms rest
    return (key, term) :: keyed

/-- Put a term in front of the first one that its key does not exceed. -/
def insertKeyed (a : TermKey × Term) : List (TermKey × Term) → List (TermKey × Term)
  | [] => [a]
  | b :: rest => if a.1.le b.1 then a :: b :: rest else b :: insertKeyed a rest

/-- Sort terms by their keys. -/
def sortTerms (terms : List Term) : Answer (List Term) := do
  let keyed ← keyTerms terms
  return (keyed.foldr insertKeyed []).map (·.2)

/-- Put the terms of a sum in order, by writing them and reading them back. -/
def withOrderedTerms (t : Tree) : Answer Tree :=
  match t.terms with
  | [(term, sign)] => .ok (if sign = .minus then term.negate else term)
  | terms => do
    let sorted ← sortTerms terms
    let written ← writeTerms sorted
    Tree.ofText (String.ofList written)

end Tree

end AlgebraTutor
