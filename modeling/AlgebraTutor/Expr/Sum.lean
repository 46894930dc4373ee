import AlgebraTutor.Expr.Engine

/-!
# Sums

A sum in normal form has its numbers added up, its like terms collected, and its terms in a fixed order.
-/

namespace AlgebraTutor.Expr

/-- A value without its numeric coefficient, beside that coefficient. -/
structure Share where
  part : Expr
  amount : Rat

/-- Add up the amounts of equal neighbours. -/
def collectShares : List Share → List Share
  | [] => []
  | s :: rest =>
    match collectShares rest with
    | t :: ts => if s.part == t.part then ⟨s.part, s.amount + t.amount⟩ :: ts else s :: t :: ts
    | [] => [s]

/-- Add up the amounts of equal values. -/
def collect (shares : List Share) : List Share :=
  collectShares (shares.mergeSort fun a b => compare a.part b.part != .gt)

/-- The term that a share is, unless its amount is zero. -/
def Share.term? (s : Share) : Option Expr :=
  if s.amount = 0 then none
  else if s.amount = 1 then some s.part
  else match s.part with
    | mul fs => some (mul (num s.amount :: fs))
    | e => some (mul [num s.amount, e])

/-- Is the term a power of a number that is still to be worked out? -/
def isOpenPower : Expr → Bool
  | pow (num _) (num q) => q.den = 1 || q < 0
  | _ => false

/-- The terms of values, one level down, with open powers worked out. -/
def termsBelow (E : Engine) (es : List Expr) : List Expr :=
  es.flatMap fun e => (e.terms.map fun t =>
    match t with
    | pow b x => if t.isOpenPower then E.power b x else t
    | t => t).flatMap terms

/-- The sum of values. -/
def sumWith (E : Engine) (es : List Expr) : Expr :=
  let ts := termsBelow E es
  if ts.any isIndeterminate then indeterminate
  else
    let infinities := ts.countP isInfinite
    if 1 < infinities then indeterminate
    else
      let number := ts.foldl (fun q t => match t with | num r => q + r | _ => q) 0
      let shares := ts.filterMap fun t =>
        match t with
        | num _ | infinite => none
        | t => let (c, part) := t.coefficient; some ⟨part, c⟩
      let kept := (collect shares).filterMap Share.term?
      if infinities = 1 then rawAdd (infinite :: sort (kept.filter fun t => t.hasSymbol || t.hasUndefined))
      else rawAdd ((if number = 0 then [] else [num number]) ++ sort kept)

end AlgebraTutor.Expr
