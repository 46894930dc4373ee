import AlgebraTutor.Decimal.Float
import AlgebraTutor.Expr.Basic
import AlgebraTutor.Number.ComplexFloat

/-!
# What is known about a value

Nothing is assumed of an unknown. A constant is known by its approximate value, and a value with unknowns by
its shape: an absolute value is not negative, an exponential of a real is positive, and so on upwards.
-/

namespace AlgebraTutor

open Number

/-- What is known about a value; `false` says that it is not known. -/
structure Facts where
  /-- The approximate value of a constant. -/
  value : Option ComplexFloat
  real : Bool
  nonneg : Bool
  positive : Bool
  negative : Bool
  nonzero : Bool
  integer : Bool

namespace Facts

/-- Nothing is known. -/
def unknown : Facts := ⟨none, false, false, false, false, false, false⟩

/-- What the approximate value of a constant tells. -/
def ofValue (z : ComplexFloat) : Facts :=
  if !z.isFinite then unknown
  else if z.isReal then
    let clear := ComplexFloat.tolerance 0 < z.re.abs
    ⟨some z, true, clear && z.re > 0, clear && z.re > 0, clear && z.re < 0, clear, false⟩
  else ⟨some z, false, false, false, false, true, false⟩

/-- What is known of a rational number. -/
def ofRat (q : Rat) : Facts :=
  ⟨some (.ofReal (Decimal.toFloat q)), true, 0 ≤ q, 0 < q, q < 0, q ≠ 0, q.den = 1⟩

/-- What is known of a sum of two values. -/
def add (a b : Facts) : Facts :=
  match a.value, b.value with
  | some x, some y => { ofValue (x.add y) with integer := a.integer && b.integer }
  | _, _ =>
    let nonneg := a.nonneg && b.nonneg
    let positive := nonneg && (a.positive || b.positive)
    let negative := a.negative && b.negative
    ⟨none, a.real && b.real, nonneg, positive, negative, positive || negative, a.integer && b.integer⟩

/-- What is known of a product of two values. -/
def mul (a b : Facts) : Facts :=
  match a.value, b.value with
  | some x, some y => { ofValue (x.mul y) with integer := a.integer && b.integer }
  | _, _ =>
    let positive := (a.positive && b.positive) || (a.negative && b.negative)
    let negative := (a.positive && b.negative) || (a.negative && b.positive)
    ⟨none, a.real && b.real, positive || (a.nonneg && b.nonneg), positive, negative, a.nonzero && b.nonzero,
      a.integer && b.integer⟩

/-- What is known of a power. -/
def pow (even : Bool) (b e : Facts) : Facts :=
  match b.value, e.value with
  | some x, some y => { ofValue (x.pow y) with integer := b.integer && e.integer && e.nonneg }
  | _, _ =>
    let positive := (b.positive && e.real) || (even && b.real && b.nonzero)
    ⟨none, positive || (b.real && e.integer && (e.nonneg || b.nonzero)) || (b.nonneg && e.nonneg),
      positive || (b.nonneg && e.real) || (even && b.real), positive, false, b.nonzero,
      b.integer && e.integer && e.nonneg⟩

/-- What is known of a function. -/
def fn (f : Func) (x : Facts) : Facts :=
  let constant (g : ComplexFloat → ComplexFloat) (otherwise : Facts) : Facts :=
    match x.value with
    | some z => ofValue (g z)
    | none => otherwise
  let realIfReal : Facts := { unknown with real := x.real }
  match f with
  | .exp => constant ComplexFloat.exp ⟨none, x.real, x.real, x.real, false, true, false⟩
  | .log => constant ComplexFloat.log { unknown with real := x.positive }
  | .sin => constant ComplexFloat.sin realIfReal
  | .cos => constant ComplexFloat.cos realIfReal
  | .tan => constant (fun z => z.sin.div z.cos) realIfReal
  | .cot => constant (fun z => z.cos.div z.sin) realIfReal
  | .sinh => constant ComplexFloat.sinh realIfReal
  | .cosh => constant ComplexFloat.cosh { realIfReal with nonneg := x.real, positive := x.real, nonzero := x.real }
  | .tanh => constant (fun z => z.sinh.div z.cosh) realIfReal
  | .re => constant (fun z => .ofReal z.re) { unknown with real := true }
  | .im => constant (fun z => .ofReal z.im) { unknown with real := true }
  | .abs => constant (fun z => .ofReal z.abs) ⟨none, true, true, x.nonzero, false, x.nonzero, false⟩

end Facts

namespace Expr

mutual

/-- What is known about a value. -/
def facts : Expr → Facts
  | num q => .ofRat q
  | infinite | indeterminate => .unknown
  | named .e => .ofValue (.ofReal (Float.exp 1))
  | named .i => .ofValue ⟨0, 1⟩
  | named .pi => .ofValue (.ofReal (2 * Float.acos 0))
  | symbol _ => .unknown
  | add ts => sumFacts ts
  | mul fs => productFacts fs
  | pow b e =>
    let even := match e with
      | num q => q.den = 1 && q.num % 2 = 0
      | _ => false
    .pow even (facts b) (facts e)
  | fn f x => .fn f (facts x)

/-- What is known about a sum. -/
def sumFacts : List Expr → Facts
  | [] => .ofRat 0
  | [e] => facts e
  | e :: es => .add (facts e) (sumFacts es)

/-- What is known about a product. -/
def productFacts : List Expr → Facts
  | [] => .ofRat 1
  | [e] => facts e
  | e :: es => .mul (facts e) (productFacts es)

end

end Expr

end AlgebraTutor
