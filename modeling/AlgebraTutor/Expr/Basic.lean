/-!
# Values in automatic normal form

What a tree stands for once arithmetic is allowed: sums without sums inside and like terms collected, products
without products inside and like powers collected, numbers worked out. A value is built by the operations of
`Expr.Engine`; the constructors alone build values that are still to be worked out.
-/

namespace AlgebraTutor

/-- A constant that is no rational number. -/
inductive NamedConstant
  | e
  | i
  | pi
deriving Repr, DecidableEq

/-- A function of one argument. -/
inductive Func
  | exp
  | log
  | sin
  | cos
  | tan
  | cot
  | sinh
  | cosh
  | tanh
  | re
  | im
  | abs
deriving Repr, DecidableEq

/-- A value: a number, a constant, an unknown, or an operation on values. -/
inductive Expr
  | num (value : Rat)
  /-- The quotient of a number other than zero by zero. -/
  | infinite
  /-- What has no value at all, such as zero divided by zero. -/
  | indeterminate
  | named (constant : NamedConstant)
  | symbol (name : String)
  | add (terms : List Expr)
  | mul (factors : List Expr)
  | pow (base exponent : Expr)
  | fn (function : Func) (argument : Expr)
deriving Repr, Inhabited

namespace NamedConstant

/-- The constants in the order of their names. -/
def rank : NamedConstant → Nat
  | e => 0
  | i => 1
  | pi => 2

end NamedConstant

namespace Func

/-- The name of a function. -/
def name : Func → String
  | exp => "exp"
  | log => "log"
  | sin => "sin"
  | cos => "cos"
  | tan => "tan"
  | cot => "cot"
  | sinh => "sinh"
  | cosh => "cosh"
  | tanh => "tanh"
  | re => "re"
  | im => "im"
  | abs => "Abs"

/-- The place of a function among the functions in a row of factors. -/
def rank : Func → Nat
  | exp => 10
  | log => 11
  | sin => 20
  | cos => 21
  | tan => 22
  | cot => 23
  | sinh => 30
  | cosh => 31
  | tanh => 32
  | re => 41
  | im => 42
  | abs => 10000

end Func

namespace Expr

/-- The constructors in the order in which `compare` lists values. -/
def tag : Expr → Nat
  | num _ => 0
  | infinite => 1
  | indeterminate => 2
  | named _ => 3
  | symbol _ => 4
  | pow _ _ => 5
  | mul _ => 6
  | add _ => 7
  | fn _ _ => 8

/-- The order of rational numbers. -/
def compareRat (p q : Rat) : Ordering :=
  if p < q then .lt else if q < p then .gt else .eq

/-- The order of texts. -/
def compareText (s t : String) : Ordering :=
  if s < t then .lt else if t < s then .gt else .eq

mutual

/-- A total order of values by their structure, numbers first. -/
def compare : Expr → Expr → Ordering
  | num p, num q => compareRat p q
  | named c, named d => Ord.compare c.rank d.rank
  | symbol s, symbol t => compareText s t
  | pow b e, pow c f => (compare b c).then (compare e f)
  | mul as, mul bs => compareAll as bs
  | add as, add bs => compareAll as bs
  | fn f a, fn g b => (Ord.compare f.rank g.rank).then (compare a b)
  | a, b => Ord.compare a.tag b.tag

/-- The lexicographic order of rows of values. -/
def compareAll : List Expr → List Expr → Ordering
  | [], [] => .eq
  | [], _ :: _ => .lt
  | _ :: _, [] => .gt
  | a :: as, b :: bs => (compare a b).then (compareAll as bs)

end

instance : BEq Expr := ⟨fun a b => compare a b == .eq⟩

/-- Sort values. -/
def sort (es : List Expr) : List Expr :=
  es.mergeSort fun a b => compare a b != .gt

/-- The number zero. -/
def zero : Expr := num 0

/-- The number one. -/
def one : Expr := num 1

/-- The number minus one. -/
def minusOne : Expr := num (-1)

/-- The number one half. -/
def half : Expr := num (1 / 2)

/-- The circle constant. -/
def pi : Expr := named .pi

/-- The base of the natural logarithm. -/
def e : Expr := named .e

/-- The imaginary unit. -/
def i : Expr := named .i

/-- The number that a value is. -/
def rat? : Expr → Option Rat
  | num q => some q
  | _ => none

/-- The integer that a value is. -/
def int? : Expr → Option Int
  | num q => if q.den = 1 then some q.num else none
  | _ => none

/-- Is the value a number? -/
def isNum (e : Expr) : Bool := e.rat?.isSome

/-- Is the value an integer? -/
def isInt (e : Expr) : Bool := e.int?.isSome

/-- Is the value a negative number? -/
def isNegativeNum : Expr → Bool
  | num q => q < 0
  | _ => false

/-- The terms of a value as a sum. -/
def terms : Expr → List Expr
  | add ts => ts
  | e => [e]

/-- The factors of a value as a product. -/
def factors : Expr → List Expr
  | mul fs => fs
  | e => [e]

/-- Is the value a sum? -/
def isAdd : Expr → Bool
  | add _ => true
  | _ => false

/-- Is the value a product? -/
def isMul : Expr → Bool
  | mul _ => true
  | _ => false

/-- The product of factors that need no more work. -/
def rawMul : List Expr → Expr
  | [] => one
  | [e] => e
  | es => mul es

/-- The sum of terms that need no more work. -/
def rawAdd : List Expr → Expr
  | [] => zero
  | [e] => e
  | es => add es

/-- The numeric coefficient of a value, and what it multiplies. -/
def coefficient : Expr → Rat × Expr
  | num q => (q, one)
  | mul (num q :: rest) => (q, rawMul rest)
  | e => (1, e)

/-- The negative of a value that is no sum. -/
def negTerm : Expr → Expr
  | num q => num (-q)
  | infinite => infinite
  | indeterminate => indeterminate
  | mul (infinite :: rest) => mul (infinite :: rest)
  | mul (num q :: rest) => if q = -1 then rawMul rest else mul (num (-q) :: rest)
  | mul fs => mul (minusOne :: fs)
  | e => mul [minusOne, e]

/-- The negative of a value. -/
def neg : Expr → Expr
  | add ts => add (sort (ts.map negTerm))
  | e => negTerm e

/-- A value as a power. The reciprocal of an integer as a base turns into that integer. -/
def basePower : Expr → Expr × Expr
  | pow (num q) e => if q.num = 1 ∧ q.den ≠ 1 then (num q.den, e.neg) else (num q, e)
  | pow b e => (b, e)
  | fn .exp x => (Expr.e, x)
  | e => (e, one)

mutual

/-- Does some part of the value satisfy `p`? -/
def any (p : Expr → Bool) : Expr → Bool
  | add ts => p (add ts) || anyOf p ts
  | mul fs => p (mul fs) || anyOf p fs
  | pow b e => p (pow b e) || any p b || any p e
  | fn f x => p (fn f x) || any p x
  | e => p e

/-- Does some part of some value satisfy `p`? -/
def anyOf (p : Expr → Bool) : List Expr → Bool
  | [] => false
  | e :: es => any p e || anyOf p es

end

/-- Is it one of the two values that no number is? -/
def isUndefined : Expr → Bool
  | infinite | indeterminate => true
  | _ => false

/-- Is it the infinite value? -/
def isInfinite : Expr → Bool
  | infinite => true
  | _ => false

/-- Has it no value at all? -/
def isIndeterminate : Expr → Bool
  | indeterminate => true
  | _ => false

/-- Is some part of the value undefined? -/
def hasUndefined (e : Expr) : Bool :=
  e.any isUndefined

/-- Has the value an unknown? -/
def hasSymbol (e : Expr) : Bool :=
  e.any fun
    | symbol _ => true
    | _ => false

/-- Is the value a constant? -/
def isConstant (e : Expr) : Bool :=
  !e.hasSymbol

mutual

/-- The unknowns of a value, in increasing order and each once. -/
def symbolsInto (found : List String) : Expr → List String
  | symbol name => insert name found
  | add ts => symbolsOf found ts
  | mul fs => symbolsOf found fs
  | pow b e => symbolsInto (symbolsInto found b) e
  | fn _ x => symbolsInto found x
  | _ => found
where
  /-- Insert a name into an increasing list. -/
  insert (name : String) : List String → List String
    | [] => [name]
    | n :: ns => if name < n then name :: n :: ns else if name = n then n :: ns else n :: insert name ns

/-- The unknowns of several values. -/
def symbolsOf (found : List String) : List Expr → List String
  | [] => found
  | e :: es => symbolsOf (symbolsInto found e) es

end

/-- The unknowns of a value. -/
def symbols (e : Expr) : List String :=
  symbolsInto [] e

mutual

/-- The number of nodes of a value. -/
def size : Expr → Nat
  | add ts => 1 + totalSize ts
  | mul fs => 1 + totalSize fs
  | pow b e => 1 + size b + size e
  | fn _ x => 1 + size x
  | _ => 1

/-- The number of nodes of several values. -/
def totalSize : List Expr → Nat
  | [] => 0
  | e :: es => size e + totalSize es

end

end Expr

end AlgebraTutor
