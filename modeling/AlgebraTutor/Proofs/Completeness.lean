import AlgebraTutor.Proofs.Canonical.Undegraded
import AlgebraTutor.Proofs.Equivalence

/-!
# Equal polynomials are equivalent

However they are written, two expressions of one polynomial are judged equivalent, and so are two equations whose sides
differ by the same polynomial up to its sign. For expressions the difference simplifies to zero, and nothing can fail on the
way. For equations the canonical trees are the same; the stages do not fail if the integers of the canonical tree can be
written and the exponents have a nearest double.
-/

namespace AlgebraTutor

open AlgebraTutor.Tree (letterPolynomials simplify_of_denotes)
open AlgebraTutor.Polynomial (IsSortable)

/-- The exponents of the polynomial have a nearest double. -/
def FitsFloats (f : MvPolynomial String ℚ) : Prop :=
  ∀ m ∈ f.support, ∀ v, (Decimal.nearestValue? (m v : ℕ)).isSome = true

theorem fitsFloats_congr {f g : MvPolynomial String ℚ} (h : f = g ∨ f = -g) (hf : FitsFloats f) : FitsFloats g := by
  rcases h with rfl | rfl
  · exact hf
  · rwa [FitsFloats, MvPolynomial.support_neg] at hf

/-! ### Expressions -/

theorem isNegligible_of_denotes_zero {t : Tree} (ht : t.Denotes 0) (config : Config) : isNegligible config t = .ok true := by
  have hsimplify : t.simplify = .ok (.const 0) := simplify_of_denotes Polynomial.canonical_nil ht
  have hzero : (Tree.const 0).isWrittenAsZero = .ok true := rfl
  rw [isNegligible, hsimplify, Answer.ok_bind, hzero]
  rfl

/-- An equation is equivalent to an input with the same canonical tree. -/
theorem equivalent_of_canonicalTree_eq {config : Config} {a b : String} {p q : Input} {t : Tree} (hp : Input.ofText a = .ok p)
    (hq : Input.ofText b = .ok q) (hequation : p.isEquation = true) (ha : canonicalTree config a = .ok t)
    (hb : canonicalTree config b = .ok t) : equivalent config a b = true := by
  refine equivalent_of_judgeEquivalent ?_
  simp [judgeEquivalent, hp, hq, hequation, ha, hb]

theorem equivalent_of_expressions {a b : String} {f : MvPolynomial String ℚ} (ha : IsPolynomialExpression a f)
    (hb : IsPolynomialExpression b f) (config : Config) : equivalent config a b = true := by
  obtain ⟨p, t, hp, hpexpression, ht, hf⟩ := ha
  obtain ⟨q, u, hq, hqexpression, hu, hg⟩ := hb
  have hplain : (p.isEquation || q.isEquation) = false := by simp [Input.isEquation, hpexpression, hqexpression]
  have hread : readDifference p.trimmed q.trimmed = .ok (.binary .sub t u) :=
    Tree.ofText_differenceText (Input.trimmed_of_ofText hp).1 (Input.trimmed_of_ofText hq).1 ht hu hf.callFree hg.callFree
  have hzero : (Tree.binary .sub t u).Denotes (f - f) := Tree.interpretation.holds_binary_sub hf hg
  rw [sub_self] at hzero
  refine equivalent_of_judgeEquivalent ?_
  simp only [judgeEquivalent, hp, hq, ht, hu, hread, Answer.ok_bind, hplain, Bool.false_eq_true, if_false]
  split
  · rfl
  · exact isNegligible_of_denotes_zero hzero config

/-! ### Equations -/

namespace Polynomial

variable {p : Polynomial}

/-- The exponents of a canonical list are those of its polynomial. -/
theorem hasFloatExponents_of_fitsFloats (hp : p.Canonical) (hfits : FitsFloats p.toMv) : ∀ s ∈ p, HasFloatExponents s := by
  intro s hs f hf
  have hsupport : s.1.exponents ∈ p.toMv.support := by
    rw [MvPolynomial.mem_support_iff, coeff_of_mem hp hs]
    exact hp.nonzero s hs
  rw [← Monomial.exponents_of_mem (hp.monomials s hs) hf]
  exact hfits _ hsupport f.1

theorem isShortTerm_of_mem_neg : (∀ s ∈ p.neg, IsShortTerm s) ↔ ∀ s ∈ p, IsShortTerm s :=
  forall_mem_neg.trans (forall₂_congr fun _ _ => isShortTerm_neg)

theorem isShortTerm_positive : (∀ s ∈ p.positive, IsShortTerm s) ↔ ∀ s ∈ p, IsShortTerm s := by
  unfold positive
  split
  · exact isShortTerm_of_mem_neg
  · rfl

theorem isSortable_of_canonical (hp : p.Canonical) {t : Tree} (ht : letterPolynomials.Holds t p.toMv)
    (hshort : ∀ s ∈ p, IsShortTerm s) (hfits : FitsFloats p.toMv) : ∀ s ∈ p, IsSortable s :=
  fun s hs => ⟨⟨hp.nonzero s hs, (Tree.isLettered_of_holds hp ht s hs).2, hshort s hs⟩, hp.monomials s hs,
    hasFloatExponents_of_fitsFloats hp hfits s hs⟩

end Polynomial

open Canonical in
/-- The terms of the first tree can be written if those of the canonical tree can. -/
theorem Canonical.isShortTerm_of_ofBase {p : Polynomial} (hp : p.Canonical) {t : Tree} (ht : letterPolynomials.Holds t p.toMv)
    {config : Config} (hshort : (Form.ofBase .standard config true p.toTree).tree.HasShortIntegers) :
    ∀ s ∈ p, Polynomial.IsShortTerm s := by
  rw [tree_ofBase_polynomial hp ht] at hshort
  split at hshort
  · exact Polynomial.isShortTerm_positive.mp (Polynomial.hasShortIntegers_toTree.mp hshort)
  · exact Polynomial.hasShortIntegers_toTree.mp hshort

theorem equivalent_of_equations {config : Config} {a b : String} {f g f' g' : MvPolynomial String ℚ}
    (ha : IsPolynomialEquation a f g) (hb : IsPolynomialEquation b f' g')
    (hshort : ∀ t, canonicalTree config a = .ok t → t.HasShortIntegers) (hfits : FitsFloats (f - g))
    (h : f - g = f' - g' ∨ f - g = -(f' - g')) : equivalent config a b = true := by
  obtain ⟨p, t, hp, ht, hpvalue, hpform⟩ := ha.exists_base config
  obtain ⟨q, u, hq, hu, hqvalue, hqform⟩ := hb.exists_base config
  rw [← hpvalue] at hfits h
  rw [← hqvalue] at h
  have hpositive : p.positive = q.positive := (Polynomial.positive_eq_iff hp hq).mpr h
  have hpshort := Canonical.isShortTerm_of_ofBase hp ht (hshort _ (by rw [canonicalTree, hpform]; rfl))
  have hqshort : ∀ s ∈ q, Polynomial.IsShortTerm s :=
    Polynomial.isShortTerm_positive.mp (hpositive ▸ Polynomial.isShortTerm_positive.mpr hpshort)
  have htree {p : Polynomial} {t : Tree} (hp : p.Canonical) (ht : letterPolynomials.Holds t p.toMv)
      (hsort : ∀ s ∈ p, IsSortable s) : (Canonical.Form.ofBase .standard config true p.toTree).tree = p.positive.toTree := by
    rw [Canonical.tree_ofBase_polynomial hp ht, Canonical.degraded_ofBase hp ht hsort]
    rfl
  have hleft : canonicalTree config a = .ok p.positive.toTree := by
    rw [canonicalTree, hpform, Answer.ok_bind, htree hp ht (Polynomial.isSortable_of_canonical hp ht hpshort hfits)]
    rfl
  have hright : canonicalTree config b = .ok p.positive.toTree := by
    rw [canonicalTree, hqform, Answer.ok_bind,
      htree hq hu (Polynomial.isSortable_of_canonical hq hu hqshort (fitsFloats_congr h hfits)), hpositive]
    rfl
  obtain ⟨input, l, r, -, -, hinput, hequation, -⟩ := ha
  obtain ⟨input', -, -, -, -, hinput', -⟩ := hb
  exact equivalent_of_canonicalTree_eq hinput hinput' (by simp [Input.isEquation, hequation]) hleft hright

/-- Equivalence is complete on polynomials. Two expressions of one polynomial are equivalent. Two equations are equivalent
if the differences of their sides are equal or opposite, as long as the integers of the canonical tree can be written and the
exponents of the difference have a nearest double. -/
theorem equivalent_complete (config : Config) {a b : String} :
    (∀ f, IsPolynomialExpression a f → IsPolynomialExpression b f → equivalent config a b = true) ∧
      ∀ f g f' g', IsPolynomialEquation a f g → IsPolynomialEquation b f' g' →
        (∀ t, canonicalTree config a = .ok t → t.HasShortIntegers) → FitsFloats (f - g) →
        (f - g = f' - g' ∨ f - g = -(f' - g')) → equivalent config a b = true :=
  ⟨fun _ ha hb => equivalent_of_expressions ha hb config, fun _ _ _ _ ha hb => equivalent_of_equations ha hb⟩

open MvPolynomial (C X)

/-- Exponents of at most one have a nearest double. -/
theorem fitsFloats_of_totalDegree_le_one {f : MvPolynomial String ℚ} (hf : f.totalDegree ≤ 1) : FitsFloats f := by
  intro m hm v
  have hle : m v ≤ 1 := ((Finsupp.le_degree v m).trans (MvPolynomial.le_totalDegree hm)).trans hf
  rcases Nat.le_one_iff_eq_zero_or_eq_one.mp hle with hzero | hone
  · rw [hzero]
    rfl
  · rw [hone]
    rfl

/-- Two writings of one expression; and an equation with its sides swapped, a decimal in place of the fraction. -/
theorem equivalent_rewritten :
    equivalent .standard "2(x + y)" "x*2 + 2y" = true ∧ equivalent .standard "x/2 - y = 1" "y + 1 = 0.5x" = true := by
  have hx : (Tree.symbol "x").Denotes (X "x") := .symbol (by decide)
  have hy : (Tree.symbol "y").Denotes (X "y") := .symbol (by decide)
  have hfactored : IsPolynomialExpression "2(x + y)" (C 2 * (X "x" + X "y")) :=
    ⟨⟨"2(x + y)", none⟩, .apply .mul [.const 2, .paren (.apply .add [.symbol "x", .symbol "y"])], by decide +kernel, rfl,
      by decide +kernel, .mul (.const 2) (.paren (.add hx hy))⟩
  have hspread : IsPolynomialExpression "x*2 + 2y" (X "x" * C 2 + C 2 * X "y") :=
    ⟨⟨"x*2 + 2y", none⟩, .apply .add [.apply .mul [.symbol "x", .const 2], .apply .mul [.const 2, .symbol "y"]],
      by decide +kernel, rfl, by decide +kernel, .add (.mul hx (.const 2)) (.mul (.const 2) hy)⟩
  have hquotient : IsPolynomialEquation "x/2 - y = 1" (C 2⁻¹ * X "x" - X "y") (C 1) :=
    ⟨⟨"x/2 - y = 1", some ("x/2 - y", "1")⟩, _, _, .apply .sub [.apply .div [.symbol "x", .const 2], .symbol "y"], .const 1,
      by decide +kernel, rfl, by decide +kernel, by decide +kernel, .sub (.div hx (.const 2) (by decide)) hy, .const 1⟩
  have hdecimal : IsPolynomialEquation "y + 1 = 0.5x" (X "y" + C 1) (C (1 / 2) * X "x") :=
    ⟨⟨"y + 1 = 0.5x", some ("y + 1", "0.5x")⟩, _, _, .apply .add [.symbol "y", .const 1],
      .apply .mul [.const (1 / 2), .symbol "x"], by decide +kernel, rfl, by decide +kernel, by decide +kernel,
      .add hy (.const 1), .mul (.const (1 / 2)) hx⟩
  have hspreadEq : X "x" * C 2 + C 2 * X "y" = (C 2 * (X "x" + X "y") : MvPolynomial String ℚ) := by ring
  have hcanonical : canonicalTree .standard "x/2 - y = 1" =
      .ok (.apply .sub [.apply .sub [.apply .div [.symbol "x", .const 2], .symbol "y"], .const 1]) := by decide +kernel
  refine ⟨(equivalent_complete .standard).1 _ hfactored (hspreadEq ▸ hspread),
    (equivalent_complete .standard).2 _ _ _ _ hquotient hdecimal ?short ?fits (.inr ?opposite)⟩
  case short =>
    rw [hcanonical]
    rintro t ⟨⟩ n hn
    have hvalue : (n : ℚ) = 2 ∨ (n : ℚ) = 1 := by simpa [Tree.nodes, Tree.nodesAll] using hn
    rcases hvalue with htwo | hone
    · obtain rfl : n = 2 := by exact_mod_cast htwo
      exact (by decide : (Nat.toDigits 10 2).length ≤ Tree.digitLimit)
    · obtain rfl : n = 1 := by exact_mod_cast hone
      exact Tree.isShort_one
  case fits =>
    have hx : (C 2⁻¹ * X "x" : MvPolynomial String ℚ).totalDegree ≤ 1 :=
      (MvPolynomial.totalDegree_mul _ _).trans (by simp)
    have hdifference : (C 2⁻¹ * X "x" - X "y" : MvPolynomial String ℚ).totalDegree ≤ 1 :=
      (MvPolynomial.totalDegree_sub _ _).trans (max_le hx (by simp))
    exact fitsFloats_of_totalDegree_le_one ((MvPolynomial.totalDegree_sub _ _).trans (max_le hdifference (by simp)))
  case opposite =>
    rw [one_div]
    ring

end AlgebraTutor
