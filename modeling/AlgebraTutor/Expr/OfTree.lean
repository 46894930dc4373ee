import AlgebraTutor.Expr.Expand
import AlgebraTutor.Tree.Printer

/-!
# The value of a tree

A tree is worked out from its leaves upwards, operands from left to right, each with the automatic
simplification that the operations on values carry out, and no more.
-/

namespace AlgebraTutor.Expr

/-- The functions of one argument that a tree may call. -/
def functionNamed? (name : String) : Option Func :=
  if name = "sin" then some .sin
  else if name = "cos" then some .cos
  else if name = "tan" then some .tan
  else if name = "exp" then some .exp
  else if name = "abs" then some .abs
  else none

/-- The value of a call. A square root takes a second argument that says whether it is worked out at all, and
a logarithm one that is its base. -/
def ofCall (node : Tree) (name : String) (args : List Expr) : Answer Expr :=
  if name = "sqrt" then
    match args with
    | [a] => .ok (engine.sqrt a)
    | [a, flag] => .ok (if flag == zero then pow a half else engine.sqrt a)
    | _ => .error .argumentCount
  else if name = "log" ∨ name = "ln" then
    match args with
    | [a] => .ok (engine.apply .log a)
    | [a, b] => .ok (if a.isIndeterminate || b.isIndeterminate then indeterminate else logOfBase engine a b)
    | _ => .error .argumentCount
  else match functionNamed? name with
    | some f =>
      match args with
      | [a] => .ok (engine.apply f a)
      | _ => .error .argumentCount
    | none => do
      let text ← node.text
      .error (.unknownFunction name text)

/-- The value of an operator; operands after the second have no part in it. -/
def ofOperator (node : Tree) (op : Op) (args : List Expr) : Answer Expr :=
  match op, args with
  | .call name, args => ofCall node name args
  | .sub, [a] => .ok a.neg
  | .add, a :: b :: _ => .ok (engine.sum [a, b])
  | .sub, a :: b :: _ => .ok (engine.difference a b)
  | .mul, a :: b :: _ => .ok (engine.product [a, b])
  | .div, a :: b :: _ => .ok (engine.quotient a b)
  | .pow, a :: b :: _ => .ok (engine.power a b)
  | _, _ => .error .missingOperand

mutual

/-- The value of a tree. -/
def ofTree : Tree → Answer Expr
  | .const value => .ok (num value)
  | .symbol name => .ok (if name = "pi" then pi else if name = "E" then e else symbol name)
  | .paren content => ofTree content
  | .apply op args => do
    let values ← ofTrees args
    ofOperator (.apply op args) op values

/-- The values of several trees. -/
def ofTrees : List Tree → Answer (List Expr)
  | [] => .ok []
  | t :: ts => do
    let v ← ofTree t
    let vs ← ofTrees ts
    return v :: vs

end

end AlgebraTutor.Expr
