import AlgebraTutor.Polynomial.Monomial

/-!
# Polynomials

Polynomials with rational coefficients in named unknowns, as the list of their terms: monomials strictly
decreasing, coefficients not zero. Every operation keeps this form, so equal polynomials are equal lists.
-/

namespace AlgebraTutor

/-- A polynomial: its monomials, from the greatest downwards, with their coefficients. -/
abbrev Polynomial := List (Monomial × Rat)

namespace Polynomial

/-- The constant polynomial. -/
def const (c : Rat) : Polynomial :=
  if c = 0 then [] else [(Monomial.one, c)]

/-- A single unknown. -/
def var (name : String) : Polynomial :=
  [(Monomial.var name, 1)]

/-- Put a term in front of terms, unless its coefficient is zero. -/
def consTerm (m : Monomial) (c : Rat) (p : Polynomial) : Polynomial :=
  if c = 0 then p else (m, c) :: p

/-- The sum of two polynomials. -/
def add : Polynomial → Polynomial → Polynomial
  | [], q => q
  | p, [] => p
  | (m, c) :: p, (n, d) :: q =>
    match Monomial.compare m n with
    | .gt => (m, c) :: add p ((n, d) :: q)
    | .lt => (n, d) :: add ((m, c) :: p) q
    | .eq => consTerm m (c + d) (add p q)
termination_by p q => p.length + q.length

/-- Every coefficient times a rational. -/
def scale (c : Rat) (p : Polynomial) : Polynomial :=
  if c = 0 then [] else p.map fun t => (t.1, c * t.2)

/-- The negative of a polynomial. -/
def neg (p : Polynomial) : Polynomial :=
  scale (-1) p

/-- The product of a polynomial and a term; a monomial factor keeps the order of monomials. -/
def mulTerm (m : Monomial) (c : Rat) (p : Polynomial) : Polynomial :=
  if c = 0 then [] else p.map fun t => (Monomial.mul m t.1, c * t.2)

/-- The product of two polynomials. -/
def mul : Polynomial → Polynomial → Polynomial
  | [], _ => []
  | (m, c) :: p, q => add (mulTerm m c q) (mul p q)

/-- The product of `n` copies of a polynomial. -/
def powSum (p : Polynomial) : Nat → Polynomial
  | 0 => const 1
  | n + 1 => mul p (powSum p n)

/-- The power of a rational; a unit has one at once, however large the exponent. -/
def powRat (c : Rat) (n : Nat) : Rat :=
  if c = 1 then 1 else if c = -1 then (if n % 2 = 0 then 1 else -1) else c ^ n

/-- The power of a polynomial; that of a single term is a single term. -/
def pow (p : Polynomial) (n : Nat) : Polynomial :=
  match p with
  | [] => if n = 0 then const 1 else []
  | [(m, c)] => [(Monomial.pow m n, powRat c n)]
  | p => powSum p n

/-- The value of a polynomial without unknowns. -/
def constant? : Polynomial → Option Rat
  | [] => some 0
  | [([], c)] => some c
  | _ => none

end Polynomial

end AlgebraTutor
