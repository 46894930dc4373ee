import AlgebraTutor.Proofs.Canonical.Form
import AlgebraTutor.Proofs.Polynomial.Shape
import AlgebraTutor.Proofs.Tree.NormalForm

/-!
# Canonical forms of polynomials

Of trees that denote polynomials in single letters the standard simplifier is lawful: it answers the layout of the
canonical list of terms, which is built, and on which automatic simplification has nothing to do. The sign of the first term
of that list decides between a polynomial and its negative, so both have one and the same choice.
-/

namespace AlgebraTutor

open MvPolynomial (C X)

namespace Polynomial

/-! ### A polynomial and its negative -/

theorem hasNegativeLead_neg {p : Polynomial} (hp : p.Canonical) (hne : p ≠ []) : p.neg.hasNegativeLead = !p.hasNegativeLead := by
  obtain ⟨⟨m, c⟩, rest, rfl⟩ := List.exists_cons_of_ne_nil hne
  have hc : c ≠ 0 := hp.nonzero _ List.mem_cons_self
  rw [neg, scale, if_neg (by decide), List.map_cons, hasNegativeLead, hasNegativeLead, neg_one_mul, ← decide_not]
  refine decide_eq_decide.mpr ?_
  rw [neg_lt_zero, not_lt]
  exact ⟨le_of_lt, fun h => lt_of_le_of_ne h hc.symm⟩

theorem forall_mem_neg {p : Polynomial} {P : Monomial × Rat → Prop} : (∀ s ∈ p.neg, P s) ↔ ∀ s ∈ p, P (s.1, -s.2) := by
  rw [neg, scale, if_neg (by decide), List.forall_mem_map]
  simp only [neg_one_mul]

/-- The polynomial or its negative, whichever has no minus in front. -/
def positive (p : Polynomial) : Polynomial :=
  if p.hasNegativeLead then p.neg else p

theorem canonical_positive {p : Polynomial} (hp : p.Canonical) : p.positive.Canonical := by
  unfold positive
  split
  · exact canonical_neg hp
  · exact hp

theorem toMv_positive (p : Polynomial) : p.positive.toMv = p.toMv ∨ p.positive.toMv = -p.toMv := by
  unfold positive
  split
  · exact .inr (toMv_neg p)
  · exact .inl rfl

theorem negated_twice {p : Polynomial} (hp : p.Canonical) : p.neg.neg = p :=
  toMv_injective (canonical_neg (canonical_neg hp)) hp (by rw [toMv_neg, toMv_neg, neg_neg])

theorem positive_neg {p : Polynomial} (hp : p.Canonical) : p.neg.positive = p.positive := by
  by_cases hne : p = []
  · rw [hne]
    rfl
  · rw [positive, positive, hasNegativeLead_neg hp hne, negated_twice hp]
    cases p.hasNegativeLead <;> rfl

/-- The choice of the sign forgets the sign and nothing else. -/
theorem positive_eq_iff {p q : Polynomial} (hp : p.Canonical) (hq : q.Canonical) :
    p.positive = q.positive ↔ p.toMv = q.toMv ∨ p.toMv = -q.toMv := by
  constructor
  · intro h
    have hvalue := congrArg toMv h
    rcases toMv_positive p with hp' | hp' <;> rcases toMv_positive q with hq' | hq' <;> rw [hp', hq'] at hvalue
    · exact .inl hvalue
    · exact .inr hvalue
    · exact .inr (neg_eq_iff_eq_neg.mp hvalue)
    · exact .inl (neg_injective hvalue)
  · rintro (h | h)
    · rw [toMv_injective hp hq h]
    · rw [← toMv_neg] at h
      rw [toMv_injective hp (canonical_neg hq) h, positive_neg hq]

end Polynomial

namespace Tree

/-! ### Polynomials in single letters -/

/-- Trees stand for the polynomials that they denote, if their unknowns are single letters. -/
noncomputable def letterPolynomials : Interpretation (MvPolynomial String ℚ) :=
  interpretation.restrict fun v => ∃ c : Char, c.isAlpha = true ∧ v = c.toString

variable {t : Tree} {f : MvPolynomial String ℚ}

/-- The canonical list of a polynomial in single letters has them for its unknowns. -/
theorem isLettered_of_holds {p : Polynomial} (hp : p.Canonical) (ht : letterPolynomials.Holds t p.toMv) :
    Polynomial.IsLettered p := by
  intro s hs
  refine ⟨hp.nonzero s hs, fun f hf => ?_⟩
  have hmem := Denotes.mem_unknowns_of_mem_vars ht.1 (Polynomial.mem_vars_of_mem hp hs hf)
  exact ⟨ht.2 _ hmem, (mem_unknowns.mp hmem).2⟩

theorem laidOut_toTree {p : Polynomial} (hp : p.Canonical) (ht : letterPolynomials.Holds t p.toMv) : LaidOut p.toTree :=
  (isLettered_of_holds hp ht).laidOut_toTree

theorem holds_toTree {p : Polynomial} (hp : p.Canonical) (ht : letterPolynomials.Holds t p.toMv) :
    letterPolynomials.Holds p.toTree p.toMv :=
  ⟨Polynomial.denotes_toTree (Polynomial.unreserved_of_denotes hp ht.1),
    fun _ hv => (laidOut_toTree hp ht).built.isAlpha_of_mem_unknowns hv⟩

theorem holds_positive {p : Polynomial} (ht : letterPolynomials.Holds t p.toMv) :
    letterPolynomials.Holds (if p.hasNegativeLead then t.negate else t) p.positive.toMv := by
  unfold Polynomial.positive
  split
  · simpa [Polynomial.toMv_neg] using ht
  · exact ht

/-- The first term of a layout has the sign of the first term of the list. -/
theorem hasNegativeLead_toTree {p : Polynomial} (hp : p.Canonical) (ht : letterPolynomials.Holds t p.toMv) :
    p.toTree.hasNegativeLead = .ok p.hasNegativeLead := by
  obtain ⟨q, hsum, hq, -⟩ := (laidOut_toTree hp ht).sumOfMonomials?
  obtain rfl := Option.some.inj ((polynomial?_eq_some_iff.mpr ⟨hp, (holds_toTree hp ht).1⟩).symm.trans hq)
  rw [hasNegativeLead, hsum]

end Tree

open AlgebraTutor.Tree (letterPolynomials simplify_of_denotes laidOut_toTree holds_toTree)

theorem Simplifier.lawful_standard : Simplifier.standard.Lawful letterPolynomials where
  unique ht hu := ht.1.simplify_congr hu.1
  holds ht h := by
    obtain ⟨p, hp, rfl⟩ := ht.1.exists_canonical
    obtain rfl := Except.ok.inj ((simplify_of_denotes hp ht.1).symm.trans h)
    exact holds_toTree hp ht
  built ht h := by
    obtain ⟨p, hp, rfl⟩ := ht.1.exists_canonical
    obtain rfl := Except.ok.inj ((simplify_of_denotes hp ht.1).symm.trans h)
    exact (laidOut_toTree hp ht).built
  lead ht h hw := by
    obtain ⟨p, hp, rfl⟩ := ht.1.exists_canonical
    obtain rfl := Except.ok.inj ((simplify_of_denotes hp ht.1).symm.trans h)
    rw [Except.ok.inj (hw.symm.trans ((laidOut_toTree hp ht).rebuild Tree.keepsLayout_coefficientNode))]

open Canonical in
/-- The canonical form of a polynomial is its layout, and that of an equation the layout of the positive of the
polynomial and its negative, if no stage fails. -/
theorem Canonical.tree_ofBase_polynomial {t : Tree} {p : Polynomial} (hp : p.Canonical) (ht : letterPolynomials.Holds t p.toMv)
    (config : Config) (isEquation : Bool) :
    let form := Form.ofBase .standard config isEquation p.toTree
    form.tree = if isEquation && !form.degraded then p.positive.toTree else p.toTree := by
  intro form
  have hholds := holds_toTree hp ht
  have htree := Simplifier.lawful_standard.tree_ofBase hholds (simplify_of_denotes hp hholds.1) config isEquation
  change if isEquation && !form.degraded then _ else _ at htree
  split at htree
  · rename_i hsigned
    rw [if_pos hsigned]
    obtain ⟨negative, hnegative, hsimplify⟩ := htree
    obtain rfl := Except.ok.inj ((Tree.hasNegativeLead_toTree hp ht).symm.trans hnegative)
    have hlayout := simplify_of_denotes (Polynomial.canonical_positive hp) (Tree.holds_positive hholds).1
    exact Except.ok.inj (hsimplify.symm.trans hlayout)
  · rename_i hunsigned
    rw [if_neg hunsigned]
    exact htree

end AlgebraTutor
