import AlgebraTutor.Expr.OfTree
import AlgebraTutor.Polynomial.Layout

/-!
# Laying out a value

A value as a tree: sums with negative terms as differences, products with the number in front, quotients with
everything of a negative exponent in the divisor, and powers to one half as square roots.
-/

namespace AlgebraTutor.Expr

/-- The name under which a function is written. -/
def displayName : Func → String
  | .abs => "abs"
  | f => f.name

mutual

/-- The tree of a value; `fuel` bounds the depth. -/
def layOut : Nat → Expr → Answer Tree
  | 0, _ => .error .unrepresentable
  | fuel + 1, value =>
    match value with
    | num q => .ok (.ofRat q)
    | symbol name => .ok (.symbol name)
    | named .e => .ok (.symbol "E")
    | named .pi => .ok (.symbol "pi")
    | named .i | infinite | indeterminate => .error .unrepresentable
    | add _ =>
      match value.orderedTerms with
      | [] => .ok (.const 0)
      | t :: ts => do
        let first ← layOut fuel t
        layOutTerms fuel first ts
    | mul _ | pow _ _ => do
      let (n, d) := asFraction engine value
      if !(d == one) then
        let n ← layOut fuel n
        let d ← layOut fuel d
        return .binary .div n d
      else
        match value with
        | pow _ _ =>
          let (b, x) := value.basePower
          let base ← layOut fuel b
          if x == half then return .call "sqrt" [base]
          else
            let exponent ← layOut fuel x
            return .binary .pow base exponent
        | _ =>
          let (c, rest) := value.coefficient
          let factors ← layOutAll fuel rest.orderedFactors
          if c = -1 then return .productOf (Tree.negateFirst factors)
          else if c = 1 then return .productOf factors
          else return .productOf (.ofRat c :: factors)
    | fn f x => do
      let argument ← layOut fuel x
      return .call (displayName f) [argument]

/-- The trees of several values. -/
def layOutAll : Nat → List Expr → Answer (List Tree)
  | 0, _ => .error .unrepresentable
  | fuel + 1, es => es.mapM (layOut fuel)

/-- Append terms to a sum. -/
def layOutTerms : Nat → Tree → List Expr → Answer Tree
  | 0, _, _ => .error .unrepresentable
  | fuel + 1, sum, ts =>
    ts.foldlM
      (fun sum t => do
        if t.isMinus then
          let term ← layOut fuel t.neg
          return .binary .sub sum term
        else
          let term ← layOut fuel t
          return .binary .add sum term)
      sum

end

/-- How deep a value may be. -/
def layoutDepth : Nat := 2000

/-- The tree of a value. A value that is infinite or has none is no expression. -/
def toTree (value : Expr) : Answer Tree :=
  if value.hasUndefined then .error .undefined else layOut layoutDepth value

end AlgebraTutor.Expr
