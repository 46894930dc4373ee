/-!
# Monomials

A product of powers of named unknowns, as the list of its unknowns with their exponents: names strictly
increasing, exponents positive, so that equal monomials are equal lists. The order is lexicographic: the
unknown that comes first decides, and its higher power is the greater monomial.
-/

namespace AlgebraTutor

/-- A product of powers: each unknown with its exponent, names increasing and exponents positive. -/
abbrev Monomial := List (String × Nat)

namespace Monomial

/-- The empty product. -/
def one : Monomial := []

/-- A single unknown. -/
def var (name : String) : Monomial := [(name, 1)]

/-- The product of two monomials. -/
def mul : Monomial → Monomial → Monomial
  | [], n => n
  | m, [] => m
  | (v, d) :: m, (w, e) :: n =>
    if v < w then (v, d) :: mul m ((w, e) :: n)
    else if w < v then (w, e) :: mul ((v, d) :: m) n
    else (v, d + e) :: mul m n
termination_by m n => m.length + n.length

/-- The power of a monomial. -/
def pow (m : Monomial) (n : Nat) : Monomial :=
  if n = 0 then [] else m.map fun f => (f.1, f.2 * n)

/-- The lexicographic order of monomials. -/
def compare : Monomial → Monomial → Ordering
  | [], [] => .eq
  | [], _ :: _ => .lt
  | _ :: _, [] => .gt
  | (v, d) :: m, (w, e) :: n =>
    if v < w then .gt
    else if w < v then .lt
    else if d < e then .lt
    else if e < d then .gt
    else compare m n

end Monomial

end AlgebraTutor
