import Mathlib.Algebra.Field.Rat
import Mathlib.Algebra.Ring.Hom.Defs
import Mathlib.Tactic.LinearCombination
import AlgebraTutor.Canonical.Coefficient
import AlgebraTutor.Canonical.Distribute
import AlgebraTutor.Pattern.Decimal

/-!
# Readings of the ring operations

What distributing products, tidying coefficients and writing quotients as decimals need of a meaning of trees: numbers stand
for themselves, parentheses for nothing, and sums, products and quotients for those of a commutative ring. Powers and
calls may mean anything. Each of the three steps keeps the value of the node that it is done to.
-/

namespace AlgebraTutor

/-- A meaning of trees that reads numbers, parentheses and the operators other than powers as a commutative ring does. -/
structure Reading (R : Type) [CommRing R] where
  Holds : Tree → R → Prop
  scalar : ℚ →+* R
  const_iff : ∀ {value : ℚ} {f : R}, Holds (.const value) f ↔ f = scalar value
  paren_iff : ∀ {t : Tree} {f : R}, Holds (.paren t) f ↔ Holds t f
  neg_iff : ∀ {t : Tree} {f : R}, Holds (.apply .sub [t]) f ↔ Holds t (-f)
  add_iff : ∀ {t u : Tree} {f : R}, Holds (.apply .add [t, u]) f ↔ ∃ g h, Holds t g ∧ Holds u h ∧ g + h = f
  sub_iff : ∀ {t u : Tree} {f : R}, Holds (.apply .sub [t, u]) f ↔ ∃ g h, Holds t g ∧ Holds u h ∧ g - h = f
  mul_iff : ∀ {t u : Tree} {f : R}, Holds (.apply .mul [t, u]) f ↔ ∃ g h, Holds t g ∧ Holds u h ∧ g * h = f
  div_iff : ∀ {t u : Tree} {f : R},
    Holds (.apply .div [t, u]) f ↔ ∃ g h k, Holds t g ∧ Holds u h ∧ h * k = 1 ∧ g * k = f

namespace Reading

open AlgebraTutor.Tree (parenIf)

variable {R : Type} [CommRing R] (D : Reading R) {t u : Tree} {f g : R}

/-! ### Parentheses and the operations that set them -/

@[simp] theorem holds_stripParens : D.Holds t.stripParens f ↔ D.Holds t f := by
  induction t using Tree.stripParens.induct with
  | case1 content ih => rw [Tree.stripParens, ih, D.paren_iff]
  | case2 t h => rw [Tree.stripParens]; simpa using h

@[simp] theorem holds_parenIf {needed : Bool} : D.Holds (parenIf needed t) f ↔ D.Holds t f := by
  cases needed
  · rfl
  · exact D.paren_iff

theorem holds_negative_const {value : ℚ} : D.Holds (.const (-value)) f ↔ D.Holds (.const value) (-f) := by
  rw [D.const_iff, D.const_iff, map_neg, neg_eq_iff_eq_neg]

@[simp] theorem holds_negate : D.Holds t.negate f ↔ D.Holds t (-f) := by
  rw [← D.holds_stripParens (t := t)]
  unfold Tree.negate
  split
  · rename_i value hvalue
    rw [hvalue, D.holds_negative_const]
  · rw [D.neg_iff, D.holds_parenIf]

theorem holds_binary_add (ht : D.Holds t f) (hu : D.Holds u g) : D.Holds (.binary .add t u) (f + g) :=
  D.add_iff.mpr ⟨f, g, by simpa using ht, by simpa using hu, rfl⟩

theorem holds_binary_sub (ht : D.Holds t f) (hu : D.Holds u g) : D.Holds (.binary .sub t u) (f - g) :=
  D.sub_iff.mpr ⟨f, g, by simpa using ht, by simpa using hu, rfl⟩

theorem holds_binary_mul (ht : D.Holds t f) (hu : D.Holds u g) : D.Holds (.binary .mul t u) (f * g) :=
  D.mul_iff.mpr ⟨f, g, by simpa using ht, by simpa using hu, rfl⟩

variable {D}

/-! ### Products over sums -/

theorem holds_of_sumParts? {a b : Tree} {op : Op} (h : t.sumParts? = some (op, a, b)) (ht : D.Holds t f) :
    ∃ g k, D.Holds a g ∧ D.Holds b k ∧ (op = .add ∧ g + k = f ∨ op = .sub ∧ g - k = f) := by
  unfold Tree.sumParts? at h
  split at h
  · cases h
    obtain ⟨g, k, hg, hk, rfl⟩ := D.add_iff.mp ht
    exact ⟨g, k, by simpa using hg, by simpa using hk, .inl ⟨rfl, rfl⟩⟩
  · cases h
    obtain ⟨g, k, hg, hk, rfl⟩ := D.sub_iff.mp ht
    exact ⟨g, k, by simpa using hg, by simpa using hk, .inr ⟨rfl, rfl⟩⟩
  · simp at h

theorem holds_distributeOver (ht : D.Holds t f) (hu : D.Holds u g) : D.Holds (Tree.distributeOver t u) (f * g) := by
  induction t, u using Tree.distributeOver.induct generalizing f g with
  | case1 t u op a b hparts iha ihb =>
    rw [Tree.distributeOver, hparts]
    obtain ⟨k, l, hk, hl, ⟨rfl, rfl⟩ | ⟨rfl, rfl⟩⟩ := holds_of_sumParts? hparts hu
    · rw [mul_add]
      exact D.holds_binary_add (iha ht hk) (ihb ht hl)
    · rw [mul_sub]
      exact D.holds_binary_sub (iha ht hk) (ihb ht hl)
  | case2 t u hright op a b hparts iha ihb =>
    rw [Tree.distributeOver, hright, hparts]
    obtain ⟨k, l, hk, hl, ⟨rfl, rfl⟩ | ⟨rfl, rfl⟩⟩ := holds_of_sumParts? hparts ht
    · rw [add_mul]
      exact D.holds_binary_add (iha hk hu) (ihb hl hu)
    · rw [sub_mul]
      exact D.holds_binary_sub (iha hk hu) (ihb hl hu)
  | case3 t u hright hleft =>
    rw [Tree.distributeOver, hright, hleft]
    exact D.holds_binary_mul ht hu

/-- Distributing a product keeps its value. -/
theorem holds_distributeNode (ht : D.Holds t f) : D.Holds t.distributeNode f := by
  unfold Tree.distributeNode
  split
  · obtain ⟨g, k, hg, hk, rfl⟩ := D.mul_iff.mp ht
    exact holds_distributeOver (D.holds_stripParens.mpr hg) (D.holds_stripParens.mpr hk)
  · exact ht

/-! ### Coefficients -/

theorem holds_coefficientProduct {c : ℚ} {other whole : Tree} (hother : D.Holds other f)
    (hwhole : D.Holds whole (D.scalar c * f)) : D.Holds (Tree.coefficientProduct c other whole) (D.scalar c * f) := by
  unfold Tree.coefficientProduct
  split_ifs with hzero hone hminus
  · rw [D.const_iff, hzero, map_zero, zero_mul]
  · rwa [hone, map_one, one_mul]
  · rw [D.holds_negate, hminus, map_neg, map_one, neg_one_mul, neg_neg]
    exact hother
  · exact hwhole

/-- Tidying a coefficient keeps the value of the product. -/
theorem holds_coefficientNode (ht : D.Holds t f) : D.Holds t.coefficientNode f := by
  unfold Tree.coefficientNode
  split
  · rename_i left right
    obtain ⟨g, k, hg, hk, rfl⟩ := D.mul_iff.mp ht
    have hleft := D.holds_stripParens.mpr hg
    have hright := D.holds_stripParens.mpr hk
    split
    · rename_i c hc
      rw [hc, D.const_iff] at hleft
      subst hleft
      exact holds_coefficientProduct hright ht
    · rename_i c hc _
      rw [hc, D.const_iff] at hright
      subst hright
      rw [mul_comm]
      exact holds_coefficientProduct hleft (D.holds_binary_mul (D.const_iff.mpr rfl) hleft)
    · exact ht
  · exact ht

/-! ### Quotients as decimals -/

/-- A numerator is the product of its leading number and the rest. -/
theorem exists_holds_leadingNumber (ht : D.Holds t f) :
    ∃ g, D.Holds t.leadingNumber.2 g ∧ D.scalar t.leadingNumber.1 * g = f := by
  unfold Tree.leadingNumber
  split
  · rename_i first rest
    split
    · rename_i c hc
      obtain ⟨g, k, hg, hk, rfl⟩ := D.mul_iff.mp ht
      rw [← D.holds_stripParens, hc, D.const_iff] at hg
      exact ⟨k, hk, by rw [hg]⟩
    · exact ⟨f, ht, by rw [map_one, one_mul]⟩
  · exact ⟨f, ht, by rw [map_one, one_mul]⟩

theorem holds_decimalProduct {d : ℚ} {k : R} (hd : d ≠ 0) (hk : D.scalar d * k = 1) (ht : D.Holds t f) :
    D.Holds (t.decimalProduct d) (f * k) := by
  have hinverse : D.scalar d⁻¹ = k := by
    have hunit : D.scalar d⁻¹ * D.scalar d = 1 := by rw [← map_mul, inv_mul_cancel₀ hd, map_one]
    rw [← mul_one (D.scalar d⁻¹), ← hk, ← mul_assoc, hunit, one_mul]
  unfold Tree.decimalProduct
  split
  · rw [D.const_iff] at ht ⊢
    rw [ht, div_eq_mul_inv, map_mul, hinverse]
  · rename_i t
    obtain ⟨g, hg, hvalue⟩ := exists_holds_leadingNumber (D.holds_stripParens.mpr (D.neg_iff.mp ht))
    have hproduct := D.holds_binary_mul (D.const_iff.mpr (rfl : D.scalar (-1 * t.stripParens.leadingNumber.1 / d) = _)) hg
    have hquotient : D.scalar (-1 * t.stripParens.leadingNumber.1 / d) * g = f * k := by
      rw [div_eq_mul_inv, map_mul, map_mul, hinverse, map_neg, map_one]
      linear_combination (-k) * hvalue
    rwa [hquotient] at hproduct
  · obtain ⟨g, hg, hvalue⟩ := exists_holds_leadingNumber ht
    have hproduct := D.holds_binary_mul (D.const_iff.mpr (rfl : D.scalar (1 * t.leadingNumber.1 / d) = _)) hg
    have hquotient : D.scalar (1 * t.leadingNumber.1 / d) * g = f * k := by
      rw [div_eq_mul_inv, map_mul, one_mul, hinverse]
      linear_combination k * hvalue
    rwa [hquotient] at hproduct

theorem pos_of_hasFiniteReciprocal {d : ℚ} (h : hasFiniteReciprocal d = true) : 0 < d := by
  unfold hasFiniteReciprocal at h
  split at h
  · simp at h
  · rename_i hbad
    exact not_le.mp (not_or.mp hbad).2

/-- Writing a quotient as a decimal keeps its value. -/
theorem holds_decimalNode (ht : D.Holds t f) : D.Holds t.decimalNode f := by
  unfold Tree.decimalNode
  split
  · rename_i left right
    split
    · rename_i d hd
      split
      · rename_i hfinite
        obtain ⟨g, h, k, hg, hh, hinverse, rfl⟩ := D.div_iff.mp ht
        rw [← D.holds_stripParens, hd, D.const_iff] at hh
        rw [hh] at hinverse
        exact holds_decimalProduct (pos_of_hasFiniteReciprocal hfinite).ne' hinverse (D.holds_stripParens.mpr hg)
      · exact ht
    · exact ht
  · exact ht

end Reading

end AlgebraTutor
