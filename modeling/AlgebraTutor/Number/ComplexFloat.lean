/-!
# Approximate complex numbers

Floating point complex numbers with the principal values of logarithm and power. They decide the sign of a
constant; no digit of them is ever written.
-/

namespace AlgebraTutor.Number

/-- A complex number with floating point parts. -/
structure ComplexFloat where
  re : Float
  im : Float
deriving Repr

namespace ComplexFloat

/-- A real number. -/
def ofReal (x : Float) : ComplexFloat := ⟨x, 0⟩

/-- The sum of two complex numbers. -/
def add (a b : ComplexFloat) : ComplexFloat := ⟨a.re + b.re, a.im + b.im⟩

/-- The product of two complex numbers. -/
def mul (a b : ComplexFloat) : ComplexFloat :=
  ⟨a.re * b.re - a.im * b.im, a.re * b.im + a.im * b.re⟩

/-- The quotient of two complex numbers. -/
def div (a b : ComplexFloat) : ComplexFloat :=
  let n := b.re * b.re + b.im * b.im
  ⟨(a.re * b.re + a.im * b.im) / n, (a.im * b.re - a.re * b.im) / n⟩

/-- The distance from zero. -/
def abs (a : ComplexFloat) : Float :=
  (a.re * a.re + a.im * a.im).sqrt

/-- The exponential function. -/
def exp (a : ComplexFloat) : ComplexFloat :=
  let r := a.re.exp
  if a.im == 0 then ⟨r, 0⟩ else ⟨r * a.im.cos, r * a.im.sin⟩

/-- The principal logarithm. -/
def log (a : ComplexFloat) : ComplexFloat :=
  ⟨a.abs.log, if a.im == 0 && a.re > 0 then 0 else Float.atan2 a.im a.re⟩

/-- The principal power. -/
def pow (a b : ComplexFloat) : ComplexFloat :=
  if a.im == 0 && b.im == 0 && (a.re > 0 || b.re.floor == b.re) then ofReal (Float.pow a.re b.re)
  else if a.re == 0 && a.im == 0 then ofReal 0
  else exp (mul b (log a))

/-- The sine function. -/
def sin (a : ComplexFloat) : ComplexFloat :=
  if a.im == 0 then ofReal a.re.sin else ⟨a.re.sin * a.im.cosh, a.re.cos * a.im.sinh⟩

/-- The cosine function. -/
def cos (a : ComplexFloat) : ComplexFloat :=
  if a.im == 0 then ofReal a.re.cos else ⟨a.re.cos * a.im.cosh, -(a.re.sin * a.im.sinh)⟩

/-- The hyperbolic sine function. -/
def sinh (a : ComplexFloat) : ComplexFloat :=
  if a.im == 0 then ofReal a.re.sinh else ⟨a.re.sinh * a.im.cos, a.re.cosh * a.im.sin⟩

/-- The hyperbolic cosine function. -/
def cosh (a : ComplexFloat) : ComplexFloat :=
  if a.im == 0 then ofReal a.re.cosh else ⟨a.re.cosh * a.im.cos, a.re.sinh * a.im.sin⟩

/-- What counts as zero beside a number of the given size. -/
def tolerance (size : Float) : Float := 1e-11 * (1 + size)

/-- Is the number real, but for rounding? -/
def isReal (a : ComplexFloat) : Bool :=
  a.im.abs ≤ tolerance a.re.abs

/-- Are both parts finite? -/
def isFinite (a : ComplexFloat) : Bool :=
  a.re.isFinite && a.im.isFinite

end ComplexFloat

end AlgebraTutor.Number
