import AlgebraTutor.Error

/-!
# Expression trees

An expression as a learner wrote it, before any arithmetic: constants, symbols, operators with their
operands, and parentheses. A tree may be built in any shape. The shapes that are written and read back
unchanged come from `Tree.build`, which drops the parentheses that it is given and sets one exactly where
precedence asks for it.
-/

namespace AlgebraTutor

/-- An arithmetic operator or a call of a named function. -/
inductive Op
  | add
  | sub
  | mul
  | div
  | pow
  | call (name : String)
deriving Repr, DecidableEq, Hashable

/-- An expression tree; the operator `sub` with one operand is the unary minus. -/
inductive Tree
  | const (value : Rat)
  | symbol (name : String)
  | apply (op : Op) (args : List Tree)
  | paren (content : Tree)
deriving Repr, Hashable

namespace Op

/-- The sign of an operator, or the name of a function. -/
def sign : Op → String
  | .add => "+"
  | .sub => "-"
  | .mul => "*"
  | .div => "/"
  | .pow => "^"
  | .call name => name

/-- The operator with a sign; every other text names a function. -/
def ofSign (s : String) : Op :=
  if s = "+" then .add
  else if s = "-" then .sub
  else if s = "*" then .mul
  else if s = "/" then .div
  else if s = "^" then .pow
  else .call s

/-- Is it one of the five arithmetic operators? -/
def isArithmetic : Op → Bool
  | .call _ => false
  | _ => true

/-- How tightly an operator binds: sums, products and quotients, powers, and calls tightest of all. -/
def precedence : Op → Nat
  | .add | .sub => 1
  | .mul | .div => 2
  | .pow => 4
  | .call _ => 5

end Op

namespace Tree

mutual

/-- Are two trees the same? -/
def same : Tree → Tree → Bool
  | .const v, .const w => v == w
  | .symbol s, .symbol t => s == t
  | .apply o as, .apply p bs => o == p && sameAll as bs
  | .paren t, .paren u => same t u
  | _, _ => false

/-- Are two lists of trees the same? -/
def sameAll : List Tree → List Tree → Bool
  | [], [] => true
  | a :: as, b :: bs => same a b && sameAll as bs
  | _, _ => false

end

mutual

theorem same_iff (t u : Tree) : same t u = true ↔ t = u := by
  cases t <;> cases u <;> simp [same, same_iff, sameAll_iff]

theorem sameAll_iff (ts us : List Tree) : sameAll ts us = true ↔ ts = us := by
  cases ts <;> cases us <;> simp [sameAll, same_iff, sameAll_iff]

end

instance : DecidableEq Tree := fun t u =>
  decidable_of_iff (same t u = true) (same_iff t u)

/-- The tree within its enclosing parentheses. -/
def stripParens : Tree → Tree
  | .paren content => stripParens content
  | t => t

/-- The minus of a sign, between products and powers. -/
def signPrecedence : Nat := 3

/-- What needs no parentheses anywhere. -/
def atomPrecedence : Nat := 5

/-- How tightly the outermost operation of a tree binds. -/
def precedence : Tree → Nat
  | .const value => if value < 0 then signPrecedence else atomPrecedence
  | .symbol _ => atomPrecedence
  | .apply .sub [_] => signPrecedence
  | .apply op _ => op.precedence
  | .paren _ => atomPrecedence

/-- Must the left operand of an operator stand in parentheses? A power is right-associative. -/
def leftNeedsParen (op : Op) (child : Tree) : Bool :=
  if op = .pow then child.precedence ≤ op.precedence else child.precedence < op.precedence

/-- Must the right operand of an operator stand in parentheses? A sign needs them beside every operator but the power. -/
def rightNeedsParen (op : Op) (child : Tree) : Bool :=
  if op = .pow then child.precedence < op.precedence
  else child.precedence = signPrecedence || child.precedence ≤ op.precedence

/-- Parentheses around a tree, if they are needed. -/
def parenIf (needed : Bool) (t : Tree) : Tree :=
  if needed then .paren t else t

/-- The negative of a tree; the negative of a number is a number. -/
def negate (t : Tree) : Tree :=
  match t.stripParens with
  | .const value => .const (-value)
  | u => .apply .sub [parenIf (u.precedence ≤ signPrecedence) u]

/-- An operator between two operands, in parentheses where precedence asks for them. -/
def binary (op : Op) (left right : Tree) : Tree :=
  .apply op [parenIf (leftNeedsParen op left.stripParens) left.stripParens,
    parenIf (rightNeedsParen op right.stripParens) right.stripParens]

/-- A call of a named function, whose arguments stand between its own parentheses. -/
def call (name : String) (args : List Tree) : Tree :=
  .apply (.call name) (args.map stripParens)

/-- An operator over its operands in the shape that is read back unchanged. -/
def build (op : Op) (args : List Tree) : Answer Tree :=
  match op, args with
  | .call name, args => .ok (call name args)
  | .sub, [t] => .ok (negate t)
  | op, [left, right] => .ok (binary op left right)
  | op, args => .error (.operandCount op.sign args.length)

mutual

/-- The nodes of a tree, each before its children. -/
def nodes : Tree → List Tree
  | .const value => [.const value]
  | .symbol name => [.symbol name]
  | .apply op args => .apply op args :: nodesAll args
  | .paren content => .paren content :: nodes content

/-- The nodes of several trees, one tree after another. -/
def nodesAll : List Tree → List Tree
  | [] => []
  | t :: ts => nodes t ++ nodesAll ts

end

mutual

/-- Rebuild a tree from its leaves upwards, passing every rebuilt subtree through `f`; parentheses are set anew. -/
def rebuild (f : Tree → Tree) : Tree → Answer Tree
  | .const value => .ok (f (.const value))
  | .symbol name => .ok (f (.symbol name))
  | .apply op args => do
    let args ← rebuildAll f args
    let t ← build op args
    return f t
  | .paren content => rebuild f content

/-- Rebuild several trees. -/
def rebuildAll (f : Tree → Tree) : List Tree → Answer (List Tree)
  | [] => .ok []
  | t :: ts => do
    let t ← rebuild f t
    let ts ← rebuildAll f ts
    return t :: ts

end

/-- The symbols that name numbers. -/
def isNamedConstant (name : String) : Bool :=
  name == "pi" || name == "E"

/-- The unknowns of a tree, in increasing order and each once. -/
def unknowns (t : Tree) : List String :=
  (t.nodes.filterMap fun
    | .symbol name => if isNamedConstant name then none else some name
    | _ => none).foldr insertName []
where
  /-- Insert a name into a strictly increasing list. -/
  insertName (name : String) : List String → List String
    | [] => [name]
    | n :: ns => if name < n then name :: n :: ns else if name = n then n :: ns else n :: insertName name ns

/-- Has the tree no unknown? -/
def isConstant (t : Tree) : Bool :=
  t.unknowns.isEmpty

/-- Is the tree, within its parentheses, a sum or a difference of two operands? -/
def isSum (t : Tree) : Bool :=
  match t.stripParens with
  | .apply .add [_, _] | .apply .sub [_, _] => true
  | _ => false

end Tree

end AlgebraTutor
