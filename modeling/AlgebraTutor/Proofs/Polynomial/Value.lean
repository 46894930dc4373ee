import Mathlib.Algebra.MvPolynomial.Variables
import AlgebraTutor.Polynomial.Basic
import AlgebraTutor.Proofs.Polynomial.Monomial

/-!
# The value of a list of terms

A list of terms stands for a polynomial in Mathlib's sense, in unknowns named by strings and over the rationals. The
operations on lists compute the operations on polynomials, and they keep the canonical form: canonical monomials that
strictly decrease, with coefficients other than zero. In that form a list is determined by its polynomial, which is what
makes comparing lists a decision procedure.
-/

namespace AlgebraTutor.Polynomial

open MvPolynomial (C X coeff monomial)

/-- The polynomial that a list of terms stands for. -/
noncomputable def toMv (p : Polynomial) : MvPolynomial String ℚ :=
  (p.map fun t => monomial t.1.exponents t.2).sum

@[simp]
theorem toMv_nil : toMv [] = 0 :=
  rfl

@[simp]
theorem toMv_cons (t : Monomial × Rat) (p : Polynomial) : toMv (t :: p) = monomial t.1.exponents t.2 + toMv p := by
  simp [toMv]

/-- Canonical monomials, strictly decreasing, with coefficients other than zero. -/
structure Canonical (p : Polynomial) : Prop where
  monomials : ∀ t ∈ p, t.1.Canonical
  nonzero : ∀ t ∈ p, t.2 ≠ 0
  decreasing : p.Pairwise fun s t => toLex t.1.exponents < toLex s.1.exponents

theorem canonical_nil : Canonical [] :=
  ⟨by simp, by simp, .nil⟩

theorem canonical_cons {t : Monomial × Rat} {p : Polynomial} :
    Canonical (t :: p) ↔
      (∀ s ∈ p, toLex s.1.exponents < toLex t.1.exponents) ∧ t.1.Canonical ∧ t.2 ≠ 0 ∧ p.Canonical := by
  constructor
  · rintro ⟨hmonomials, hnonzero, hdecreasing⟩
    rw [List.pairwise_cons] at hdecreasing
    exact ⟨hdecreasing.1, hmonomials t (by simp), hnonzero t (by simp), fun s hs => hmonomials s (by simp [hs]),
      fun s hs => hnonzero s (by simp [hs]), hdecreasing.2⟩
  · rintro ⟨hbelow, hmonomial, hnonzero, hp⟩
    refine ⟨fun s hs => ?_, fun s hs => ?_, List.pairwise_cons.mpr ⟨hbelow, hp.decreasing⟩⟩
    · rcases List.mem_cons.mp hs with rfl | hs
      · exact hmonomial
      · exact hp.monomials s hs
    · rcases List.mem_cons.mp hs with rfl | hs
      · exact hnonzero
      · exact hp.nonzero s hs

theorem canonical_singleton {m : Monomial} {c : Rat} (hm : m.Canonical) (hc : c ≠ 0) : Canonical [(m, c)] :=
  canonical_cons.mpr ⟨by simp, hm, hc, canonical_nil⟩

/-! ### Constants and unknowns -/

theorem toMv_const (c : Rat) : (const c).toMv = C c := by
  unfold const
  split
  · rename_i hc
    simp [hc]
  · simp [Monomial.one]

theorem canonical_const (c : Rat) : (const c).Canonical := by
  unfold const
  split
  · exact canonical_nil
  · rename_i hc
    exact canonical_singleton Monomial.canonical_nil hc

theorem toMv_var (name : String) : (var name).toMv = X name := by
  simp [var, Monomial.var, X]

theorem canonical_var (name : String) : (var name).Canonical :=
  canonical_singleton (Monomial.canonical_var name) one_ne_zero

/-! ### Sums -/

theorem toMv_consTerm (m : Monomial) (c : Rat) (p : Polynomial) :
    (consTerm m c p).toMv = monomial m.exponents c + p.toMv := by
  unfold consTerm
  split
  · rename_i hc
    simp [hc]
  · simp

theorem toMv_add (p q : Polynomial) : (add p q).toMv = p.toMv + q.toMv := by
  fun_induction add p q with
  | case1 q => simp
  | case2 p => simp
  | case3 m c p n d q hgt ih => simp only [toMv_cons, ih, add_assoc]
  | case4 m c p n d q hlt ih => simp only [toMv_cons, ih]; abel
  | case5 m c p n d q heq ih =>
    obtain rfl := Monomial.compare_eq_iff.mp heq
    simp only [toMv_consTerm, toMv_cons, ih, map_add]
    abel

theorem exists_of_mem_add {p q : Polynomial} {t : Monomial × Rat} (ht : t ∈ add p q) :
    (∃ s ∈ p, s.1 = t.1) ∨ ∃ s ∈ q, s.1 = t.1 := by
  fun_induction add p q with
  | case1 q => exact .inr ⟨t, ht, rfl⟩
  | case2 p => exact .inl ⟨t, ht, rfl⟩
  | case3 m c p n d q hgt ih =>
    rcases List.mem_cons.mp ht with rfl | ht
    · exact .inl ⟨(m, c), by simp, rfl⟩
    · exact (ih ht).imp_left fun ⟨s, hs, heq⟩ => ⟨s, by simp [hs], heq⟩
  | case4 m c p n d q hlt ih =>
    rcases List.mem_cons.mp ht with rfl | ht
    · exact .inr ⟨(n, d), by simp, rfl⟩
    · exact (ih ht).imp_right fun ⟨s, hs, heq⟩ => ⟨s, by simp [hs], heq⟩
  | case5 m c p n d q heq ih =>
    have htail (ht : t ∈ add p q) : (∃ s ∈ (m, c) :: p, s.1 = t.1) ∨ ∃ s ∈ (n, d) :: q, s.1 = t.1 :=
      (ih ht).imp (fun ⟨s, hs, heq⟩ => ⟨s, by simp [hs], heq⟩) fun ⟨s, hs, heq⟩ => ⟨s, by simp [hs], heq⟩
    unfold consTerm at ht
    split at ht
    · exact htail ht
    · rcases List.mem_cons.mp ht with rfl | ht
      · exact .inl ⟨(m, c), by simp, rfl⟩
      · exact htail ht

theorem below_add {p q : Polynomial} {e : Lex (String →₀ ℕ)} (hp : ∀ s ∈ p, toLex s.1.exponents < e)
    (hq : ∀ s ∈ q, toLex s.1.exponents < e) : ∀ s ∈ add p q, toLex s.1.exponents < e := by
  intro t ht
  rcases exists_of_mem_add ht with ⟨s, hs, heq⟩ | ⟨s, hs, heq⟩
  · exact heq ▸ hp s hs
  · exact heq ▸ hq s hs

theorem canonical_add {p q : Polynomial} (hp : p.Canonical) (hq : q.Canonical) : (add p q).Canonical := by
  fun_induction add p q with
  | case1 q => exact hq
  | case2 p => exact hp
  | case3 m c p n d q hgt ih =>
    obtain ⟨hbelow, hm, hc, hp⟩ := canonical_cons.mp hp
    have hnm := Monomial.exponents_lt_of_compare_gt hm (canonical_cons.mp hq).2.1 hgt
    have hbelow' : ∀ s ∈ (n, d) :: q, toLex s.1.exponents < toLex m.exponents := fun s hs => by
      rcases List.mem_cons.mp hs with rfl | hs
      · exact hnm
      · exact ((canonical_cons.mp hq).1 s hs).trans hnm
    exact canonical_cons.mpr ⟨below_add hbelow hbelow', hm, hc, ih hp hq⟩
  | case4 m c p n d q hlt ih =>
    obtain ⟨hbelow, hn, hd, hq⟩ := canonical_cons.mp hq
    have hmn := Monomial.exponents_lt_of_compare_lt (canonical_cons.mp hp).2.1 hn hlt
    have hbelow' : ∀ s ∈ (m, c) :: p, toLex s.1.exponents < toLex n.exponents := fun s hs => by
      rcases List.mem_cons.mp hs with rfl | hs
      · exact hmn
      · exact ((canonical_cons.mp hp).1 s hs).trans hmn
    exact canonical_cons.mpr ⟨below_add hbelow' hbelow, hn, hd, ih hp hq⟩
  | case5 m c p n d q heq ih =>
    obtain rfl := Monomial.compare_eq_iff.mp heq
    obtain ⟨hbelowLeft, hm, -, hp⟩ := canonical_cons.mp hp
    obtain ⟨hbelowRight, -, -, hq⟩ := canonical_cons.mp hq
    unfold consTerm
    split
    · exact ih hp hq
    · rename_i hsum
      exact canonical_cons.mpr ⟨below_add hbelowLeft hbelowRight, hm, hsum, ih hp hq⟩

/-! ### Multiples -/

theorem toMv_scale (c : Rat) (p : Polynomial) : (scale c p).toMv = C c * p.toMv := by
  unfold scale
  split
  · rename_i hc
    simp [hc]
  · induction p with
    | nil => simp
    | cons t p ih => rw [List.map_cons, toMv_cons, ih, toMv_cons, mul_add, MvPolynomial.C_mul_monomial]

theorem canonical_scale {p : Polynomial} (hp : p.Canonical) (c : Rat) : (scale c p).Canonical := by
  unfold scale
  split
  · exact canonical_nil
  · rename_i hc
    refine ⟨fun t ht => ?_, fun t ht => ?_, List.pairwise_map.mpr hp.decreasing⟩
    · obtain ⟨s, hs, rfl⟩ := List.mem_map.mp ht
      exact hp.monomials s hs
    · obtain ⟨s, hs, rfl⟩ := List.mem_map.mp ht
      exact mul_ne_zero hc (hp.nonzero s hs)

theorem toMv_neg (p : Polynomial) : (neg p).toMv = -p.toMv := by
  rw [neg, toMv_scale, map_neg, MvPolynomial.C_1, neg_one_mul]

theorem canonical_neg {p : Polynomial} (hp : p.Canonical) : (neg p).Canonical :=
  canonical_scale hp (-1)

/-! ### Products -/

theorem toMv_mulTerm (m : Monomial) (c : Rat) (p : Polynomial) :
    (mulTerm m c p).toMv = monomial m.exponents c * p.toMv := by
  unfold mulTerm
  split
  · rename_i hc
    simp [hc]
  · induction p with
    | nil => simp
    | cons t p ih =>
      rw [List.map_cons, toMv_cons, ih, toMv_cons, mul_add, MvPolynomial.monomial_mul, Monomial.exponents_mul]

theorem canonical_mulTerm {m : Monomial} (hm : m.Canonical) (c : Rat) {p : Polynomial} (hp : p.Canonical) :
    (mulTerm m c p).Canonical := by
  unfold mulTerm
  split
  · exact canonical_nil
  · rename_i hc
    refine ⟨fun t ht => ?_, fun t ht => ?_, List.pairwise_map.mpr (hp.decreasing.imp fun {s t} hlt => ?_)⟩
    · obtain ⟨s, hs, rfl⟩ := List.mem_map.mp ht
      exact Monomial.canonical_mul hm (hp.monomials s hs)
    · obtain ⟨s, hs, rfl⟩ := List.mem_map.mp ht
      exact mul_ne_zero hc (hp.nonzero s hs)
    · simp only [Monomial.exponents_mul, toLex_add]
      exact add_lt_add_right hlt _

theorem toMv_mul (p q : Polynomial) : (mul p q).toMv = p.toMv * q.toMv := by
  induction p with
  | nil => simp [mul]
  | cons t p ih => rw [mul, toMv_add, toMv_mulTerm, ih, toMv_cons, add_mul]

theorem canonical_mul {p q : Polynomial} (hp : p.Canonical) (hq : q.Canonical) : (mul p q).Canonical := by
  induction p with
  | nil => exact canonical_nil
  | cons t p ih =>
    obtain ⟨-, hm, -, hp⟩ := canonical_cons.mp hp
    exact canonical_add (canonical_mulTerm hm t.2 hq) (ih hp)

/-! ### Powers -/

theorem powRat_eq (c : Rat) (n : Nat) : powRat c n = c ^ n := by
  unfold powRat
  split
  · rename_i hc
    rw [hc, one_pow]
  · split
    · rename_i hc
      rcases Nat.even_or_odd n with hn | hn
      · rw [if_pos (Nat.even_iff.mp hn), hc, hn.neg_one_pow]
      · rw [if_neg (by rw [Nat.odd_iff.mp hn]; decide), hc, hn.neg_one_pow]
    · rfl

theorem toMv_powSum (p : Polynomial) (n : Nat) : (powSum p n).toMv = p.toMv ^ n := by
  induction n with
  | zero => rw [powSum, toMv_const, MvPolynomial.C_1, pow_zero]
  | succ n ih => rw [powSum, toMv_mul, ih, pow_succ']

theorem canonical_powSum {p : Polynomial} (hp : p.Canonical) (n : Nat) : (powSum p n).Canonical := by
  induction n with
  | zero => exact canonical_const 1
  | succ n ih => exact canonical_mul hp ih

theorem toMv_pow (p : Polynomial) (n : Nat) : (pow p n).toMv = p.toMv ^ n := by
  unfold pow
  split
  · split
    · rename_i hn
      rw [hn, toMv_const, MvPolynomial.C_1, pow_zero]
    · rename_i hn
      rw [toMv_nil, zero_pow hn]
  · rename_i m c
    simp [powRat_eq, Monomial.exponents_pow, MvPolynomial.monomial_pow]
  · exact toMv_powSum p n

theorem canonical_pow {p : Polynomial} (hp : p.Canonical) (n : Nat) : (pow p n).Canonical := by
  unfold pow
  split
  · split
    · exact canonical_const 1
    · exact canonical_nil
  · obtain ⟨-, hm, hc, -⟩ := canonical_cons.mp hp
    exact canonical_singleton (Monomial.canonical_pow hm n) (powRat_eq _ n ▸ pow_ne_zero n hc)
  · exact canonical_powSum hp n

/-! ### A canonical list is determined by its polynomial -/

theorem coeff_toMv_eq_zero {p : Polynomial} {e : String →₀ ℕ} (he : ∀ t ∈ p, t.1.exponents ≠ e) : coeff e p.toMv = 0 := by
  induction p with
  | nil => simp
  | cons t p ih =>
    rw [toMv_cons, MvPolynomial.coeff_add, ih fun s hs => he s (by simp [hs]), MvPolynomial.coeff_monomial,
      if_neg (he t (by simp)), add_zero]

theorem coeff_head {t : Monomial × Rat} {p : Polynomial} (hp : Canonical (t :: p)) :
    coeff t.1.exponents (toMv (t :: p)) = t.2 := by
  rw [toMv_cons, MvPolynomial.coeff_add, coeff_toMv_eq_zero, MvPolynomial.coeff_monomial, if_pos rfl, add_zero]
  intro s hs heq
  exact absurd ((canonical_cons.mp hp).1 s hs) (by simp [heq])

theorem coeff_of_mem {p : Polynomial} (hp : p.Canonical) {t : Monomial × Rat} (ht : t ∈ p) :
    coeff t.1.exponents p.toMv = t.2 := by
  induction p with
  | nil => simp at ht
  | cons s p ih =>
    rcases List.mem_cons.mp ht with rfl | ht
    · exact coeff_head hp
    · have hne : s.1.exponents ≠ t.1.exponents := fun heq =>
        absurd ((canonical_cons.mp hp).1 t ht) (by simp [heq])
      rw [toMv_cons, MvPolynomial.coeff_add, MvPolynomial.coeff_monomial, if_neg hne, zero_add]
      exact ih (canonical_cons.mp hp).2.2.2 ht

/-- The head of a canonical list is one of the monomials of its polynomial, and none of them is greater. -/
theorem exponents_le_head {t s : Monomial × Rat} {p q : Polynomial} (hp : Canonical (t :: p)) (hq : Canonical (s :: q))
    (heq : toMv (t :: p) = toMv (s :: q)) : toLex t.1.exponents ≤ toLex s.1.exponents := by
  by_contra hlt
  rw [not_le] at hlt
  have hzero : coeff t.1.exponents (toMv (s :: q)) = 0 := coeff_toMv_eq_zero fun u hu huEq => by
    rcases List.mem_cons.mp hu with rfl | hu
    · exact absurd hlt (by simp [huEq])
    · exact absurd (((canonical_cons.mp hq).1 u hu).trans hlt) (by simp [huEq])
  rw [← heq, coeff_head hp] at hzero
  exact (canonical_cons.mp hp).2.2.1 hzero

theorem toMv_injective {p q : Polynomial} (hp : p.Canonical) (hq : q.Canonical) (heq : p.toMv = q.toMv) : p = q := by
  induction p generalizing q with
  | nil =>
    cases q with
    | nil => rfl
    | cons s q => exact absurd (coeff_head hq) (by rw [← heq]; simpa using (canonical_cons.mp hq).2.2.1.symm)
  | cons t p ih =>
    cases q with
    | nil => exact absurd (coeff_head hp) (by rw [heq]; simpa using (canonical_cons.mp hp).2.2.1.symm)
    | cons s q =>
      have hexponents : t.1.exponents = s.1.exponents :=
        toLex.injective (le_antisymm (exponents_le_head hp hq heq) (exponents_le_head hq hp heq.symm))
      have hmonomial : t.1 = s.1 :=
        Monomial.exponents_injective (canonical_cons.mp hp).2.1 (canonical_cons.mp hq).2.1 hexponents
      have hcoeff : t.2 = s.2 := by rw [← coeff_head hp, ← coeff_head hq, heq, hexponents]
      obtain rfl : t = s := Prod.ext hmonomial hcoeff
      rw [toMv_cons, toMv_cons] at heq
      rw [ih (canonical_cons.mp hp).2.2.2 (canonical_cons.mp hq).2.2.2 (add_left_cancel heq)]

theorem constant?_eq_some_iff {p : Polynomial} (hp : p.Canonical) {c : Rat} : p.constant? = some c ↔ p.toMv = C c := by
  constructor
  · intro hconstant
    unfold constant? at hconstant
    split at hconstant
    · simp [← Option.some.inj hconstant]
    · simp [← Option.some.inj hconstant]
    · simp at hconstant
  · intro hvalue
    obtain rfl := toMv_injective hp (canonical_const c) (hvalue.trans (toMv_const c).symm)
    unfold const
    split
    · rename_i hc
      simp [constant?, hc]
    · rfl

/-- An unknown that is written in a canonical list occurs in its polynomial. -/
theorem mem_vars_of_mem {p : Polynomial} (hp : p.Canonical) {t : Monomial × Rat} (ht : t ∈ p) {f : String × Nat}
    (hf : f ∈ t.1) : f.1 ∈ p.toMv.vars := by
  rw [MvPolynomial.mem_vars_iff_mem_support]
  refine ⟨t.1.exponents, ?_, ?_⟩
  · rw [MvPolynomial.mem_support_iff, coeff_of_mem hp ht]
    exact hp.nonzero t ht
  · rw [Finsupp.mem_support_iff]
    exact Monomial.exponents_ne_zero_of_mem (hp.monomials t ht) hf

end AlgebraTutor.Polynomial
