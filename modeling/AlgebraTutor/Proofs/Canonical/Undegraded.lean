import AlgebraTutor.Proofs.Canonical.Filing
import AlgebraTutor.Proofs.Canonical.Polynomial

/-!
# Canonical forms that no stage spoils

Of a layout whose terms can be written and sorted no stage fails: multiplying out reads the text of the layout back and
leaves it, the choice of the sign is a polynomial again, and the terms in order are written and read back. So the form of
such a polynomial is not degraded.
-/

namespace AlgebraTutor

open AlgebraTutor.Tree (letterPolynomials LaidOut simplify_of_denotes laidOut_toTree holds_toTree)
open AlgebraTutor.Polynomial (IsSortable)

namespace Tree

/-- A layout has no product with a sum as a factor. -/
theorem keepsLayout_distributeNode : KeepsLayout distributeNode where
  const _ := rfl
  symbol _ := rfl
  sign _ := rfl
  other op l r hop := by
    cases op with
    | mul => exact absurd rfl hop
    | _ => rfl
  product t u ht hprecedence _ hu := by
    have hleft : t.sumParts? = none := by
      unfold sumParts?
      split
      · exact absurd hprecedence (by simp [precedence, Op.precedence])
      · exact absurd hprecedence (by simp [precedence, Op.precedence])
      · rfl
    have hright : u.sumParts? = none := by cases hu <;> rfl
    rw [binary, ht.stripParens, hu.stripParens, distributeNode, stripParens_parenIf ht.stripParens,
      stripParens_parenIf hu.stripParens, distributeOver]
    split
    · simp_all
    · split
      · simp_all
      · rw [binary, ht.stripParens, hu.stripParens]

end Tree

variable {t : Tree} {p : Polynomial}

/-- A layout that can be written stays as it is, however often it is multiplied out. -/
theorem Simplifier.multiplyOut_toTree (hp : p.Canonical) (ht : letterPolynomials.Holds t p.toMv)
    (hcomposed : p.toTree.Composed) (rounds : Nat) : standard.multiplyOut rounds p.toTree = .ok p.toTree := by
  cases rounds with
  | zero => rfl
  | succ rounds =>
    obtain ⟨text, htext, hread⟩ := Reader.ofText_of_composed hcomposed
    have hspread : p.toTree.distribute = .ok p.toTree := (laidOut_toTree hp ht).rebuild Tree.keepsLayout_distributeNode
    have hfixed : standard.simplify p.toTree = .ok p.toTree := simplify_of_denotes hp (holds_toTree hp ht).1
    simp [multiplyOut, htext, hread, hspread, hfixed]

theorem Simplifier.withPositiveLead_toTree (hp : p.Canonical) (ht : letterPolynomials.Holds t p.toMv) :
    standard.withPositiveLead p.toTree = .ok p.positive.toTree := by
  have hlead : standard.hasNegativeLead p.toTree = .ok p.hasNegativeLead := Tree.hasNegativeLead_toTree hp ht
  have hnegate : letterPolynomials.Holds (Tree.negate (.paren p.toTree)) p.neg.toMv := by
    simpa [Polynomial.toMv_neg] using holds_toTree hp ht
  rw [withPositiveLead, hlead, Answer.ok_bind, Polynomial.positive]
  split
  · exact simplify_of_denotes (Polynomial.canonical_neg hp) hnegate.1
  · rfl

namespace Polynomial

theorem isSortable_positive (hsort : ∀ s ∈ p, IsSortable s) : ∀ s ∈ p.positive, IsSortable s := by
  unfold positive
  split
  · exact forall_mem_neg.mpr fun s hs => (hsort s hs).neg
  · exact hsort

/-- The layout can be put in order. -/
theorem exists_withOrderedTerms (hsort : ∀ s ∈ p, IsSortable s) : ∃ u, p.toTree.withOrderedTerms = .ok u := by
  by_cases hne : p = []
  · exact ⟨.const 0, hne ▸ rfl⟩
  · have hperm := p.displayOrder_perm
    have hlettered := isLettered_of_isWritable fun s hs => (hsort s hs).toIsWritable
    have hpresents := forall₂_presents_layout (hlettered.perm hperm) fun hnil => hne (hnil ▸ hperm).nil_eq.symm
    rw [← toTree_eq_layout] at hpresents
    have hterms := exists_termKey_of_presents hpresents fun s hs => hsort s (hperm.subset hs)
    unfold Tree.withOrderedTerms
    split
    · exact ⟨_, rfl⟩
    · obtain ⟨sorted, hsorted⟩ := Tree.exists_sortTerms fun term hterm => (hterms term hterm).1
      obtain ⟨cs, hcs⟩ := Tree.exists_writeTerms fun term hterm => (hterms term ((Tree.sortTerms_perm hsorted).subset hterm)).2
      have hplain := hlettered.laidOut_toTree.stripParens
      have hpermuted := Tree.sortTerms_perm hsorted
      rw [Tree.terms, hplain] at hpermuted
      obtain ⟨u, hu, -⟩ := Tree.exists_isSumOf_of_perm (by rw [hplain]; exact hlettered.laidOut_toTree.built) hpermuted hcs
      exact ⟨u, by rw [hsorted, Answer.ok_bind, hcs, Answer.ok_bind, hu]⟩

end Polynomial

open Canonical in
/-- A polynomial that can be multiplied out comes to the last stages of an equation as the layout of the positive of it and
its negative. -/
theorem Canonical.runStages_toTree (hp : p.Canonical) (ht : letterPolynomials.Holds t p.toMv) {config : Config}
    (hspread : Simplifier.standard.multiplyOut config.maxExpansions p.toTree = .ok p.toTree) :
    runStages (stages .standard config true) p.toTree =
      runStages [Tree.withOrderedTerms, Simplifier.standard.simplify] p.positive.toTree := by
  have htidy : p.toTree.tidyCoefficients = .ok p.toTree := (laidOut_toTree hp ht).rebuild Tree.keepsLayout_coefficientNode
  simp [stages, runStages, hspread, htidy, Simplifier.withPositiveLead_toTree hp ht]

open Canonical in
/-- No stage fails on a polynomial whose terms can be written and sorted. -/
theorem Canonical.exists_runStages (hp : p.Canonical) (ht : letterPolynomials.Holds t p.toMv)
    (hsort : ∀ s ∈ p, IsSortable s) (config : Config) (isEquation : Bool) :
    ∃ u, runStages (stages .standard config isEquation) p.toTree = .ok u := by
  have hcomposed := Polynomial.composed_toTree fun s hs => (hsort s hs).toIsWritable
  have hspread := Simplifier.multiplyOut_toTree hp ht hcomposed config.maxExpansions
  have htidy : p.toTree.tidyCoefficients = .ok p.toTree := (laidOut_toTree hp ht).rebuild Tree.keepsLayout_coefficientNode
  have hfinal {q : Polynomial} (hq : q.Canonical) (hqholds : letterPolynomials.Holds q.toTree q.toMv)
      (hqsort : ∀ s ∈ q, IsSortable s) :
      ∃ u, runStages [Tree.withOrderedTerms, Simplifier.standard.simplify] q.toTree = .ok u := by
    obtain ⟨ordered, hordered⟩ := Polynomial.exists_withOrderedTerms hqsort
    have hvalue := Reading.holds_withOrderedTerms (D := letterPolynomials.reading) (laidOut_toTree hq hqholds).built hqholds hordered
    have hsimplify : Simplifier.standard.simplify ordered = .ok q.toTree := simplify_of_denotes hq hvalue.1
    exact ⟨q.toTree, by simp [runStages, hordered, hsimplify]⟩
  have hholds := holds_toTree hp ht
  cases isEquation with
  | false =>
    obtain ⟨u, hu⟩ := hfinal hp hholds hsort
    exact ⟨u, by rw [← hu]; simp [stages, runStages, hspread, htidy]⟩
  | true =>
    have hpositive := Polynomial.canonical_positive hp
    rw [runStages_toTree hp ht hspread]
    exact hfinal hpositive (holds_toTree hpositive (Tree.holds_positive ht)) (Polynomial.isSortable_positive hsort)

open Canonical in
theorem Canonical.degraded_ofBase (hp : p.Canonical) (ht : letterPolynomials.Holds t p.toMv)
    (hsort : ∀ s ∈ p, IsSortable s) (config : Config) (isEquation : Bool) :
    (Form.ofBase .standard config isEquation p.toTree).degraded = false := by
  obtain ⟨u, hu⟩ := exists_runStages hp ht hsort config isEquation
  rw [Form.ofBase, hu]

end AlgebraTutor
