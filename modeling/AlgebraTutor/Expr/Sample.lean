import AlgebraTutor.Expr.OfTree

/-!
# Sampling a value

A value at points: unknowns are bound to numbers or to rows of numbers, and the value is computed in floating
point. Integers stay exact until they meet another number; an integer beyond the floating point range cannot
meet one.
-/

namespace AlgebraTutor

open Number

/-- A number on the way to a sampled value. -/
inductive Quantity
  /-- An exact integer. -/
  | whole (n : Int)
  /-- A constant that no function has been applied to; its powers may be complex. -/
  | plain (x : Float)
  /-- A sampled number; where it has no real power there is none. -/
  | sampled (x : Float)
  | complex (z : ComplexFloat)

namespace Quantity

/-- The floating point number nearest to an integer, if it is in range. -/
def floatOfInt? (n : Int) : Option Float :=
  (Decimal.nearest n.natAbs 1).map fun x => if n < 0 then -x.toFloat else x.toFloat

/-- A quantity in floating point. -/
def rounded? : Quantity → Option Quantity
  | whole n => (floatOfInt? n).map plain
  | q => some q

/-- A quantity as a complex number. -/
def toComplex : Quantity → ComplexFloat
  | whole n => .ofReal (Float.ofInt n)
  | plain x | sampled x => .ofReal x
  | complex z => z

/-- Combine two inexact quantities. -/
def combine (real : Float → Float → Float) (onComplex : ComplexFloat → ComplexFloat → ComplexFloat) :
    Quantity → Quantity → Quantity
  | plain x, plain y => plain (real x y)
  | plain x, sampled y | sampled x, plain y | sampled x, sampled y => sampled (real x y)
  | p, q => complex (onComplex p.toComplex q.toComplex)

/-- The sum of two quantities. -/
def add? (p q : Quantity) : Option Quantity :=
  match p, q with
  | whole m, whole n => some (whole (m + n))
  | p, q => p.rounded?.bind fun p => q.rounded?.map fun q => combine (· + ·) ComplexFloat.add p q

/-- The negative of a quantity. -/
def neg : Quantity → Quantity
  | whole n => whole (-n)
  | plain x => plain (-x)
  | sampled x => sampled (-x)
  | complex z => complex ⟨-z.re, -z.im⟩

/-- The product of two quantities. -/
def mul? (p q : Quantity) : Option Quantity :=
  match p, q with
  | whole m, whole n => some (whole (m * n))
  | p, q => p.rounded?.bind fun p => q.rounded?.map fun q => combine (· * ·) ComplexFloat.mul p q

/-- The quotient of two quantities; one of integers is rounded once. -/
def div? (p q : Quantity) : Option Quantity :=
  match p, q with
  | whole m, whole n =>
    if n = 0 then none
    else (Decimal.nearest m.natAbs n.natAbs).map fun x =>
      plain (if (m < 0) != (n < 0) then -x.toFloat else x.toFloat)
  | p, q => p.rounded?.bind fun p => q.rounded?.bind fun q =>
    match p, q with
    | plain _, plain y => if y == 0 then none else some (combine (· / ·) ComplexFloat.div p q)
    | p, q => some (combine (· / ·) ComplexFloat.div p q)

/-- The power of two quantities. -/
def pow? (p q : Quantity) : Option Quantity :=
  match p, q with
  | whole m, whole n =>
    if 0 ≤ n then some (whole (Int.pow m n.natAbs)) else (whole 1).div? (whole (Int.pow m n.natAbs))
  | p, q => p.rounded?.bind fun p => q.rounded?.bind fun q =>
    match p, q with
    | plain x, plain y =>
      if x == 0 && y < 0 then none
      else if x < 0 && y.floor != y then some (complex (ComplexFloat.pow (.ofReal x) (.ofReal y)))
      else
        let z := Float.pow x y
        if z.isInf && x.isFinite && y.isFinite then none else some (plain z)
    | p, q => some (combine Float.pow ComplexFloat.pow p q)

/-- Apply a function; an integer must fit a machine word. -/
def image? (real : Float → Float) (onComplex : ComplexFloat → Quantity) : Quantity → Option Quantity
  | whole n => if -9223372036854775808 ≤ n ∧ n < 18446744073709551616 then (floatOfInt? n).map fun x => sampled (real x) else none
  | plain x | sampled x => some (sampled (real x))
  | complex z => some (onComplex z)

end Quantity

namespace Expr

/-- The value of a function at a quantity. -/
def sampleFunction (f : Func) (q : Quantity) : Option Quantity :=
  let onComplex (g : ComplexFloat → ComplexFloat) (z : ComplexFloat) : Quantity := .complex (g z)
  match f with
  | .exp => q.image? Float.exp (onComplex ComplexFloat.exp)
  | .log => q.image? Float.log (onComplex ComplexFloat.log)
  | .sin => q.image? Float.sin (onComplex ComplexFloat.sin)
  | .cos => q.image? Float.cos (onComplex ComplexFloat.cos)
  | .tan => q.image? Float.tan (onComplex fun z => z.sin.div z.cos)
  | .cot => q.image? (fun x => 1 / Float.tan x) (onComplex fun z => z.cos.div z.sin)
  | .sinh => q.image? Float.sinh (onComplex ComplexFloat.sinh)
  | .cosh => q.image? Float.cosh (onComplex ComplexFloat.cosh)
  | .tanh => q.image? Float.tanh (onComplex fun z => z.sinh.div z.cosh)
  | .re => q.image? id fun z => .sampled z.re
  | .im => q.image? (fun _ => 0) fun z => .sampled z.im
  | .abs => q.image? Float.abs fun z => .sampled z.abs

/-- Is it a power with a negative number as its exponent? -/
def isReciprocal : Expr → Bool
  | pow _ (num q) => q < 0
  | _ => false

mutual

/-- The quantity that a value is at a point; `fuel` bounds the depth. -/
def sampleWithin (point : String → Float) : Nat → Expr → Option Quantity
  | 0, _ => none
  | fuel + 1, e =>
    match e with
    | num q => if q.den = 1 then some (.whole q.num) else (Quantity.whole q.num).div? (.whole q.den)
    | infinite | indeterminate => none
    | named .e => some (.plain (Float.exp 1))
    | named .i => some (.complex ⟨0, 1⟩)
    | named .pi => some (.plain (2 * Float.acos 0))
    | symbol name => some (.sampled (point name))
    | fn f x => (sampleWithin point fuel x).bind (sampleFunction f)
    | pow b x => samplePower point fuel b x
    | add _ =>
      (e.orderedTerms.foldl
        (fun sum t => sum.bind fun s =>
          (if t.beginsWithMinus then (sampleWithin point fuel t.neg).map Quantity.neg
            else sampleWithin point fuel t).bind fun v =>
          match s with
          | none => some (some v)
          | some s => (s.add? v).map some)
        (some none)).bind id
    | mul _ =>
      let (c, rest) := e.coefficient
      let size := if c < 0 then -c else c
      let factors := (if size = 1 then [] else [num size]) ++ rest.orderedFactors
      let above := factors.filter fun f => !f.isReciprocal
      let below := factors.filter isReciprocal
      let numerator := sampleProduct point fuel above
      let signed := if c < 0 then numerator.map Quantity.neg else numerator
      if below.isEmpty then signed
      else signed.bind fun n =>
        (sampleProduct point fuel (below.map fun f =>
          match f with
          | pow b (num q) => if q = -1 then b else pow b (num (-q))
          | f => f)).bind fun d => n.div? d

/-- The power of two values at a point. -/
def samplePower (point : String → Float) : Nat → Expr → Expr → Option Quantity
  | 0, _, _ => none
  | fuel + 1, b, x =>
    (sampleWithin point fuel b).bind fun base =>
      match x with
      | num q =>
        if q = 1 / 2 then base.image? Float.sqrt fun z => .complex (z.pow (.ofReal 0.5))
        else if q.den = 1 ∧ q < 0 then (Quantity.floatOfInt? q.num).bind fun y => base.pow? (.plain y)
        else (sampleWithin point fuel x).bind fun y => base.pow? y
      | x => (sampleWithin point fuel x).bind fun y => base.pow? y

/-- The product of values at a point. -/
def sampleProduct (point : String → Float) : Nat → List Expr → Option Quantity
  | 0, _ => none
  | fuel + 1, fs =>
    (fs.foldl
      (fun product f => product.bind fun p => (sampleWithin point fuel f).bind fun v =>
        match p with
        | none => some (some v)
        | some p => (p.mul? v).map some)
      (some none)).map fun p => p.getD (.whole 1)

end

/-- How deep a value may be. -/
def sampleDepth : Nat := 2000

/-- What a value is at a point, if it can be computed. -/
def sampleAt? (point : String → Float) (e : Expr) : Option Quantity :=
  sampleWithin point sampleDepth e

/-- Is some integer in the value too long to be written? -/
def hasLongInteger (e : Expr) : Bool :=
  e.any fun
    | num q => Nat.pow 10 Tree.digitLimit ≤ q.num.natAbs || Nat.pow 10 Tree.digitLimit ≤ q.den
    | _ => false

end Expr

/-- What an unknown is bound to. -/
inductive Binding
  | number (x : Float)
  | row (xs : List Float)

/-- The numbers of a binding. -/
def Binding.numbers : Binding → List Float
  | number x => [x]
  | row xs => xs

/-- The number of a binding at a place of a row; a row of one number and a single number are everywhere the same. -/
def Binding.at (b : Binding) (place : Nat) : Float :=
  match b with
  | number x => x
  | row [x] => x
  | row xs => (xs[place]?).getD 0

/-- The common length of rows: `none` if they do not fit together, and `some none` without any row. -/
def commonLength (bs : List Binding) : Option (Option Nat) :=
  bs.foldl
    (fun length b => length.bind fun l =>
      match b, l with
      | .number _, l => some l
      | .row xs, none => some (some xs.length)
      | .row xs, some n =>
        if n = xs.length then some (some n)
        else if n = 1 then some (some xs.length)
        else if xs.length = 1 then some (some n)
        else none)
    (some none)

/-- A sampled value: one number, or a row of them. -/
inductive Samples
  | number (x : Float)
  | row (xs : List Float)

/-- The numbers that were sampled. -/
def Samples.numbers : Samples → List Float
  | number x => [x]
  | row xs => xs

/-- Is it a complex number? -/
def Quantity.isComplex : Quantity → Bool
  | complex _ => true
  | _ => false

/-- The floating point number that a real quantity is, if it is in range. -/
def Quantity.toFloat? : Quantity → Option Float
  | whole n => floatOfInt? n
  | plain x | sampled x => some x
  | complex z => some z.re

namespace Tree

/-- The failure to evaluate a tree, which quotes the text of the tree. -/
def failToEvaluate {α : Type} (t : Tree) (cause : SampleError) : Answer α := do
  let text ← t.text
  .error (.evaluation cause text)

/-- The real numbers that a tree has been sampled to. -/
def realSamples (t : Tree) (qs : List Quantity) : Answer (List Float) :=
  if qs.any Quantity.isComplex then t.failToEvaluate .unreal
  else match qs.mapM Quantity.toFloat? with
    | none => .error .floatRange
    | some xs => if xs.all Float.isFinite then .ok xs else t.failToEvaluate .unbounded

/-- The bindings of a tree at one place of their rows. -/
def pointAt (bindings : List (String × Binding)) (place : Nat) (name : String) : Float :=
  match bindings.find? fun b => b.1 == name with
  | some b => b.2.at place
  | none => 0

/-- Sample a tree, where unknowns are bound to numbers or rows of numbers. -/
def sample (t : Tree) (bindings : List (String × Binding)) : Answer Samples := do
  let e ← Expr.ofTree t
  let names := e.symbols
  let missing := names.filter fun n => !(bindings.any fun b => b.1 == n)
  if e.hasUndefined then t.failToEvaluate .undefined
  else if !missing.isEmpty then .error (.evaluation (.unbound missing) "")
  else if e.hasLongInteger then .error .digitLimit
  else
    let used := bindings.filter fun b => names.contains b.1
    match commonLength (used.map (·.2)) with
    | none => t.failToEvaluate .inexpressible
    | some length =>
      match (List.range (length.getD 1)).mapM fun place => e.sampleAt? (pointAt used place) with
      | none => t.failToEvaluate .inexpressible
      | some qs => do
        let xs ← t.realSamples qs
        return if length.isNone then .number (xs.head?.getD 0) else .row xs

end Tree

end AlgebraTutor
