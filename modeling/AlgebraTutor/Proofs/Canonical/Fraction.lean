import AlgebraTutor.Proofs.Canonical.Polynomial
import AlgebraTutor.Proofs.Reader.Unknowns
import AlgebraTutor.Proofs.Tree.Fraction

/-!
# Canonical forms of rational expressions

For a text without named functions the canonical form says no more than the simplifier: whatever the stages do in between,
an expression has the simplified tree for its canonical tree, and an equation the simplified difference of its sides, or
that of its negative if the difference leads with a minus. The simplifier may be any that has one normal form for each
fraction of polynomials.
-/

namespace AlgebraTutor

open RationalFunction (ofPolynomial scalar ofPolynomial_injective)

namespace Tree

/-- Numbers and symbols under the four operations, with constant integers for exponents. Divisors may be zero. -/
inductive IsRational : Tree → Prop
  | const (value : ℚ) : IsRational (.const value)
  | symbol (name : String) : IsRational (.symbol name)
  | paren {t : Tree} (ht : IsRational t) : IsRational (.paren t)
  | neg {t : Tree} (ht : IsRational t) : IsRational (.apply .sub [t])
  | add {t u : Tree} (ht : IsRational t) (hu : IsRational u) : IsRational (.apply .add [t, u])
  | sub {t u : Tree} (ht : IsRational t) (hu : IsRational u) : IsRational (.apply .sub [t, u])
  | mul {t u : Tree} (ht : IsRational t) (hu : IsRational u) : IsRational (.apply .mul [t, u])
  | div {t u : Tree} (ht : IsRational t) (hu : IsRational u) : IsRational (.apply .div [t, u])
  | pow {t u : Tree} {n : ℤ} (ht : IsRational t) (hu : u.HasValue (scalar n)) (hconstant : u.isConstant = true) :
    IsRational (.apply .pow [t, u])

/-- Trees stand for the fractions that they have for values, if their unknowns are single letters. -/
noncomputable def letterFractions : Interpretation RationalFunction :=
  fractionInterpretation.restrict fun v => ∃ c : Char, c.isAlpha = true ∧ v = c.toString

end Tree

open AlgebraTutor.Tree (letterPolynomials letterFractions isLettered_of_holds)

/-- A lawful simplifier of fractions: what it makes of a rational expression, if anything, is the normal form of a
fraction. -/
structure Simplifier.NormalizesFractions (s : Simplifier) : Prop extends s.Lawful letterFractions where
  result : ∀ {t v : Tree}, t.IsRational → (∀ x ∈ t.unknowns, ∃ c : Char, c.isAlpha = true ∧ x = c.toString) →
    s.simplify t = .ok v → s.simplify v = .ok v ∧ ∃ f, letterFractions.Holds v f

/-- The polynomial in single letters that a tree has for its value. -/
def Tree.HasPolynomial (t : Tree) (p : Polynomial) : Prop :=
  p.Canonical ∧ Polynomial.IsLettered p ∧ letterFractions.Holds t (ofPolynomial p.toMv)

theorem Tree.HasPolynomial.unique {t : Tree} {p q : Polynomial} (hp : t.HasPolynomial p) (hq : t.HasPolynomial q) : p = q :=
  Polynomial.toMv_injective hp.1 hq.1 (ofPolynomial_injective (hp.2.2.1.unique hq.2.2.1))

theorem Tree.HasPolynomial.toTree {t : Tree} {p : Polynomial} (hp : t.HasPolynomial p) : p.toTree.HasPolynomial p := by
  obtain ⟨hcanonical, hlettered, -⟩ := hp
  refine ⟨hcanonical, hlettered, ?_, fun x hx => hlettered.laidOut_toTree.built.isAlpha_of_mem_unknowns hx⟩
  exact (Polynomial.denotes_toTree fun s hs f hf => ((hlettered s hs).2 f hf).2).hasValue

theorem Tree.hasPolynomial_of_holds {t : Tree} {p : Polynomial} (hp : p.Canonical) (ht : letterPolynomials.Holds t p.toMv) :
    t.HasPolynomial p :=
  ⟨hp, isLettered_of_holds hp ht, ht.1.hasValue, ht.2⟩

namespace Simplifier

/-- The simplifier that lays out polynomials, however they are written as fractions, and answers nothing else. -/
noncomputable def ofPolynomials : Simplifier where
  simplify t :=
    open Classical in if h : ∃ p, t.HasPolynomial p then .ok h.choose.toTree else .error .unrepresentable
  hasNegativeLead := Tree.hasNegativeLead

theorem simplify_ofPolynomials_eq_ok_iff {t v : Tree} :
    ofPolynomials.simplify t = .ok v ↔ ∃ p, t.HasPolynomial p ∧ v = p.toTree := by
  simp only [ofPolynomials]
  split
  · rename_i h
    constructor
    · intro heq
      exact ⟨_, h.choose_spec, (Except.ok.inj heq).symm⟩
    · rintro ⟨p, hp, rfl⟩
      rw [h.choose_spec.unique hp]
  · rename_i h
    simp only [reduceCtorEq, false_iff]
    rintro ⟨p, hp, -⟩
    exact h ⟨p, hp⟩

theorem normalizesFractions_ofPolynomials : ofPolynomials.NormalizesFractions where
  unique {t u f} ht hu := by
    have hsame : t.HasPolynomial = u.HasPolynomial := by
      ext p
      refine and_congr_right fun _ => and_congr_right fun _ => ⟨fun hp => ?_, fun hp => ?_⟩
      · rwa [← ht.1.unique hp.1]
      · rwa [← hu.1.unique hp.1]
    unfold ofPolynomials
    dsimp only
    rw [hsame]
  holds {t v f} ht h := by
    obtain ⟨p, hp, rfl⟩ := simplify_ofPolynomials_eq_ok_iff.mp h
    rw [ht.1.unique hp.2.2.1]
    exact hp.toTree.2.2
  built _ h := by
    obtain ⟨p, hp, rfl⟩ := simplify_ofPolynomials_eq_ok_iff.mp h
    exact hp.2.1.laidOut_toTree.built
  lead _ h hw := by
    obtain ⟨p, hp, rfl⟩ := simplify_ofPolynomials_eq_ok_iff.mp h
    rw [Except.ok.inj (hw.symm.trans (hp.2.1.laidOut_toTree.rebuild Tree.keepsLayout_coefficientNode))]
  result _ _ h := by
    obtain ⟨p, hp, rfl⟩ := simplify_ofPolynomials_eq_ok_iff.mp h
    exact ⟨simplify_ofPolynomials_eq_ok_iff.mpr ⟨p, hp.toTree, rfl⟩, _, hp.toTree.2.2⟩

/-- On polynomials it is the standard simplifier. -/
theorem simplify_ofPolynomials {t : Tree} {f : MvPolynomial String ℚ} (ht : letterPolynomials.Holds t f) :
    ofPolynomials.simplify t = t.simplify := by
  obtain ⟨p, hp, rfl⟩ := ht.1.exists_canonical
  rw [Tree.simplify_of_denotes hp ht.1]
  exact simplify_ofPolynomials_eq_ok_iff.mpr ⟨p, Tree.hasPolynomial_of_holds hp ht, rfl⟩

end Simplifier

end AlgebraTutor
