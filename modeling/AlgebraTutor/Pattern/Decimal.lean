import AlgebraTutor.Tree.Printer

/-!
# Quotients as decimals

A quotient whose divisor divides a power of ten is written as a decimal: `5/2` as `2.5`, and `x/2` as `0.5x`.
-/

namespace AlgebraTutor

/-- Divide a number by `d` as often as that leaves no remainder; `fuel` bounds the number of divisions. -/
def divideOutAll (d : Nat) : Nat → Nat → Nat
  | 0, n => n
  | fuel + 1, n => if n % d = 0 then divideOutAll d fuel (n / d) else n

/-- Has the reciprocal of a number a finite decimal expansion? It has if the number is a positive integer
without other prime divisors than two and five. -/
def hasFiniteReciprocal (q : Rat) : Bool :=
  if q.den ≠ 1 ∨ q ≤ 0 then false
  else
    let n := q.num.toNat
    let odd := divideOutAll 2 (n.log2 + 1) n
    divideOutAll 5 (n.log2 + 1) odd == 1

namespace Tree

/-- The number in front of a numerator without its sign, and the rest. -/
def leadingNumber : Tree → Rat × Tree
  | .apply .mul [first, rest] =>
    match first.stripParens with
    | .const c => (c, rest)
    | _ => (1, .apply .mul [first, rest])
  | t => (1, t)

/-- The quotient of a numerator without outer parentheses by a number, as a product with a decimal. -/
def decimalProduct (numerator : Tree) (d : Rat) : Tree :=
  match numerator with
  | .const v => .const (v / d)
  | .apply .sub [t] =>
    let (c, rest) := t.stripParens.leadingNumber
    binary .mul (.const (-1 * c / d)) rest
  | t =>
    let (c, rest) := t.leadingNumber
    binary .mul (.const (1 * c / d)) rest

/-- Write a quotient as a decimal, if it is one. -/
def decimalNode : Tree → Tree
  | .apply .div [left, right] =>
    match right.stripParens with
    | .const d => if hasFiniteReciprocal d then decimalProduct left.stripParens d else .apply .div [left, right]
    | _ => .apply .div [left, right]
  | t => t

/-- Write every quotient of a tree as a decimal, if it is one. -/
def withDecimals (t : Tree) : Answer Tree :=
  t.rebuild decimalNode

/-- Has the tree a number that is no integer? -/
def hasFraction (t : Tree) : Bool :=
  t.nodes.any fun
    | .const v => v.den ≠ 1
    | _ => false

end Tree

end AlgebraTutor
