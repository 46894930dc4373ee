import Mathlib
import AlgebraTutor.Proofs.Tree.Denotes

/-!
# The rational function of a tree

Trees of numbers, symbols, operators and integer powers stand for fractions of polynomials, as long as no divisor is
zero. The numbers `pi` and `E` count as unknowns here, and the exponential of an integer is a power of `E`.
-/

namespace AlgebraTutor

open MvPolynomial (C X)

/-- Fractions of polynomials with rational coefficients. -/
abbrev RationalFunction : Type :=
  FractionRing (MvPolynomial String ℚ)

namespace RationalFunction

/-- A polynomial as a fraction. -/
noncomputable def ofPolynomial : MvPolynomial String ℚ →+* RationalFunction :=
  algebraMap _ _

theorem ofPolynomial_injective : Function.Injective ofPolynomial :=
  IsFractionRing.injective _ _

/-- A number as a fraction. -/
noncomputable def scalar : ℚ →+* RationalFunction :=
  ofPolynomial.comp C

theorem scalar_injective : Function.Injective scalar :=
  ofPolynomial_injective.comp (MvPolynomial.C_injective _ _)

end RationalFunction

open RationalFunction (ofPolynomial scalar scalar_injective ofPolynomial_injective)

namespace Tree

/-- The tree stands for the fraction. A divisor is not zero, an exponent is an integer without unknowns, and a negative power
has a base other than zero. -/
inductive HasValue : Tree → RationalFunction → Prop
  | const (value : ℚ) : HasValue (.const value) (scalar value)
  | symbol (name : String) : HasValue (.symbol name) (ofPolynomial (X name))
  | paren {t : Tree} {f : RationalFunction} (ht : HasValue t f) : HasValue (.paren t) f
  | neg {t : Tree} {f : RationalFunction} (ht : HasValue t f) : HasValue (.apply .sub [t]) (-f)
  | add {t u : Tree} {f g : RationalFunction} (ht : HasValue t f) (hu : HasValue u g) : HasValue (.apply .add [t, u]) (f + g)
  | sub {t u : Tree} {f g : RationalFunction} (ht : HasValue t f) (hu : HasValue u g) : HasValue (.apply .sub [t, u]) (f - g)
  | mul {t u : Tree} {f g : RationalFunction} (ht : HasValue t f) (hu : HasValue u g) : HasValue (.apply .mul [t, u]) (f * g)
  | div {t u : Tree} {f g : RationalFunction} (ht : HasValue t f) (hu : HasValue u g) (hg : g ≠ 0) :
    HasValue (.apply .div [t, u]) (f * g⁻¹)
  | pow {t u : Tree} {f : RationalFunction} {n : ℤ} (ht : HasValue t f) (hu : HasValue u (scalar n))
    (hconstant : u.isConstant = true) (hf : n < 0 → f ≠ 0) : HasValue (.apply .pow [t, u]) (f ^ n)
  | exp (n : ℤ) : HasValue (.apply (.call "exp") [.const n]) (ofPolynomial (X "E") ^ n)

theorem HasValue.unique {t : Tree} {f g : RationalFunction} (hf : t.HasValue f) (hg : t.HasValue g) : f = g := by
  induction hf generalizing g with
  | const | symbol =>
    cases hg
    rfl
  | paren _ ih =>
    cases hg with
    | paren ht => exact ih ht
  | neg _ ih =>
    cases hg with
    | neg ht => rw [ih ht]
  | add _ _ iht ihu =>
    cases hg with
    | add ht hu => rw [iht ht, ihu hu]
  | sub _ _ iht ihu =>
    cases hg with
    | sub ht hu => rw [iht ht, ihu hu]
  | mul _ _ iht ihu =>
    cases hg with
    | mul ht hu => rw [iht ht, ihu hu]
  | div _ _ _ iht ihu =>
    cases hg with
    | div ht hu => rw [iht ht, ihu hu]
  | pow _ _ _ _ iht ihu =>
    cases hg with
    | pow ht hu =>
      rw [iht ht, Int.cast_injective (scalar_injective (ihu hu))]
  | exp n =>
    generalize hargs : [Tree.const (n : ℚ)] = args at hg
    cases hg with
    | exp m =>
      have hvalue : (n : ℚ) = m := by simpa using hargs
      rw [Int.cast_injective hvalue]

/-- Trees stand for the fractions that they have for values. -/
noncomputable def fractionInterpretation : Interpretation RationalFunction where
  Holds := HasValue
  scalar := scalar
  const_iff := ⟨fun h => by cases h; rfl, by rintro rfl; exact .const _⟩
  paren_iff := ⟨fun h => by cases h; assumption, .paren⟩
  neg_iff {t f} := ⟨fun h => by cases h with | neg ht => rwa [neg_neg], fun h => neg_neg f ▸ .neg h⟩
  add_iff :=
    ⟨fun h => by cases h with | add ht hu => exact ⟨_, _, ht, hu, rfl⟩, by rintro ⟨_, _, ht, hu, rfl⟩; exact .add ht hu⟩
  sub_iff :=
    ⟨fun h => by cases h with | sub ht hu => exact ⟨_, _, ht, hu, rfl⟩, by rintro ⟨_, _, ht, hu, rfl⟩; exact .sub ht hu⟩
  mul_iff :=
    ⟨fun h => by cases h with | mul ht hu => exact ⟨_, _, ht, hu, rfl⟩, by rintro ⟨_, _, ht, hu, rfl⟩; exact .mul ht hu⟩
  div_iff {t u f} := by
    constructor
    · intro h
      cases h with
      | div ht hu hg => exact ⟨_, _, _, ht, hu, mul_inv_cancel₀ hg, rfl⟩
    · rintro ⟨g, h, k, ht, hu, hinverse, rfl⟩
      rw [eq_inv_of_mul_eq_one_right hinverse]
      exact .div ht hu (left_ne_zero_of_mul_eq_one hinverse)
  IsPower g h f := ∃ n : ℤ, h = scalar n ∧ (n < 0 → g ≠ 0) ∧ g ^ n = f
  pow_iff {t u f} := by
    constructor
    · intro h
      cases h with
      | pow ht hu hconstant hf => exact ⟨hconstant, _, _, ht, hu, _, rfl, hf, rfl⟩
    · rintro ⟨hconstant, g, h, ht, hu, n, rfl, hg, rfl⟩
      exact .pow ht hu hconstant hg
  shape h := by
    cases h with
    | neg => exact .inl ⟨_, rfl, rfl⟩
    | add | sub | mul | div | pow => exact .inr (.inl ⟨_, _, rfl, rfl⟩)
    | exp n => exact .inr (.inr ⟨_, rfl, by simp⟩)

/-- What denotes a polynomial has that polynomial for its value. -/
theorem Denotes.hasValue {t : Tree} {f : MvPolynomial String ℚ} (h : t.Denotes f) : t.HasValue (ofPolynomial f) := by
  induction h with
  | const value => exact .const value
  | symbol => exact .symbol _
  | paren _ ih => exact .paren ih
  | neg _ ih => exact map_neg ofPolynomial _ ▸ .neg ih
  | add _ _ iht ihu => exact map_add ofPolynomial _ _ ▸ .add iht ihu
  | sub _ _ iht ihu => exact map_sub ofPolynomial _ _ ▸ .sub iht ihu
  | mul _ _ iht ihu => exact map_mul ofPolynomial _ _ ▸ .mul iht ihu
  | @div t u f c _ _ hc iht ihu =>
    have hscalar : ofPolynomial (C c) ≠ 0 := (map_ne_zero_iff scalar scalar_injective).mpr hc
    have hinverse : ofPolynomial (C c⁻¹) = (ofPolynomial (C c))⁻¹ := map_inv₀ scalar c
    rw [map_mul, hinverse, mul_comm]
    exact .div iht ihu hscalar
  | @pow t u f n _ _ hconstant iht ihu =>
    rw [map_pow, ← zpow_natCast]
    refine .pow iht ?_ hconstant fun hn => absurd hn (by omega)
    simpa [scalar] using ihu

end Tree

end AlgebraTutor
