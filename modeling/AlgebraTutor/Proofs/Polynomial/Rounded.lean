import Mathlib.Algebra.Order.Ring.Rat
import Mathlib.Tactic.NormNum
import AlgebraTutor.Polynomial.Rounded

/-!
# Rounded values of a polynomial and its negative

Rounding to the nearest double is symmetric around zero, and a sum of two terms does not depend on their order. So at every
probe the rounded value of the negative of a polynomial is the negative of its rounded value, though the two may be written
in a different order.
-/

namespace AlgebraTutor

/-! ### Doubles -/

namespace Decimal

theorem toRat_zero (exponent : Int) : (Double.mk 0 exponent).toRat = 0 := by
  simp [Double.toRat]

theorem nearestValue?_neg (q : Rat) : nearestValue? (-q) = (nearestValue? q).map Neg.neg := by
  rcases lt_trichotomy q.num 0 with hneg | hzero | hpos
  · simp [nearestValue?, hneg, not_lt.mpr hneg.le, Function.comp_def]
  · obtain rfl := Rat.num_eq_zero.mp hzero
    simp [nearestValue?, nearest, toRat_zero]
  · simp [nearestValue?, hpos, not_lt.mpr hpos.le, Function.comp_def]

end Decimal

namespace Polynomial

/-! ### Terms and sums -/

theorem neg_eq_map (p : Polynomial) : p.neg = p.map fun t => (t.1, -t.2) := by
  simp [neg, scale]

theorem roundedTerm?_neg (x : Rat) (m : Monomial) (c : Rat) : roundedTerm? x m (-c) = (roundedTerm? x m c).map Neg.neg := by
  cases m with
  | nil => exact Decimal.nearestValue?_neg c
  | cons f m =>
    simp only [roundedTerm?, Option.map_bind]
    refine congrArg _ (funext fun power => ?_)
    by_cases hone : c = 1
    · subst hone
      norm_num
    by_cases hminus : c = -1
    · subst hminus
      norm_num
    rw [if_neg fun h => hminus (neg_eq_iff_eq_neg.mp h), if_neg fun h => hone (neg_injective h), Function.comp_apply,
      if_neg hone, if_neg hminus, Decimal.nearestValue?_neg, Option.bind_map, Option.map_bind]
    refine congrArg _ (funext fun k => ?_)
    simp only [Function.comp_apply, neg_mul, Decimal.nearestValue?_neg]

theorem roundedSum?_neg (x s : Rat) (l : List (Monomial × Rat)) :
    roundedSum? x (-s) (l.map fun t => (t.1, -t.2)) = (roundedSum? x s l).map Neg.neg := by
  induction l generalizing s with
  | nil => rfl
  | cons t l ih =>
    simp only [List.map_cons, roundedSum?, roundedTerm?_neg, Option.bind_map, Option.map_bind]
    refine congrArg _ (funext fun v => ?_)
    simp only [Function.comp_apply, ← neg_add, Decimal.nearestValue?_neg, Option.bind_map, Option.map_bind]
    exact congrArg _ (funext fun s => ih s)

/-- The rounded sum of terms in the order in which they stand. -/
def roundedTotal? (x : Rat) : List (Monomial × Rat) → Option Rat
  | [] => some 0
  | (m, c) :: rest => (roundedTerm? x m c).bind fun v => roundedSum? x v rest

theorem roundedTotal?_neg (x : Rat) (l : List (Monomial × Rat)) :
    roundedTotal? x (l.map fun t => (t.1, -t.2)) = (roundedTotal? x l).map Neg.neg := by
  cases l with
  | nil => rfl
  | cons t l =>
    simp only [List.map_cons, roundedTotal?, roundedTerm?_neg, Option.bind_map, Option.map_bind]
    exact congrArg _ (funext fun v => roundedSum?_neg x v l)

theorem roundedTotal?_swap (x : Rat) (s t : Monomial × Rat) : roundedTotal? x [s, t] = roundedTotal? x [t, s] := by
  simp only [roundedTotal?, roundedSum?]
  cases roundedTerm? x s.1 s.2 <;> cases roundedTerm? x t.1 t.2 <;> simp [add_comm]

/-- The order in which a polynomial is written does not matter. -/
theorem roundedValue?_eq (x : Rat) (p : Polynomial) : p.roundedValue? x = roundedTotal? x p := by
  have htotal : p.roundedValue? x = roundedTotal? x p.displayOrder := rfl
  rw [htotal]
  unfold displayOrder
  split
  · split
    · exact roundedTotal?_swap ..
    · rfl
  · rfl

/-! ### Polynomials -/

theorem roundedValue?_neg (x : Rat) (p : Polynomial) : p.neg.roundedValue? x = (p.roundedValue? x).map Neg.neg := by
  rw [roundedValue?_eq, roundedValue?_eq, neg_eq_map, roundedTotal?_neg]

theorem constant?_neg (p : Polynomial) : p.neg.constant? = p.constant?.map Neg.neg := by
  rw [neg_eq_map]
  match p with
  | [] => rfl
  | [([], c)] => rfl
  | (f :: m, c) :: p => rfl
  | ([], c) :: s :: p => rfl

theorem isNearZero_neg (tolerance : Rat) (v : Option Rat) : isNearZero tolerance (v.map Neg.neg) = isNearZero tolerance v := by
  cases v with
  | none => rfl
  | some v => simp [isNearZero]

/-- A polynomial is near zero at all probes exactly if its negative is. -/
theorem vanishesAt_neg (probes : List Rat) (tolerance : Rat) (p : Polynomial) :
    p.neg.vanishesAt probes tolerance = p.vanishesAt probes tolerance := by
  rw [vanishesAt, vanishesAt, constant?_neg]
  cases p.constant? with
  | some c => simp only [Option.map_some, Decimal.nearestValue?_neg, isNearZero_neg]
  | none => simp only [Option.map_none, roundedValue?_neg, isNearZero_neg]

end Polynomial

end AlgebraTutor
