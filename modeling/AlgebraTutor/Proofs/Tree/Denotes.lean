import Mathlib.Algebra.MvPolynomial.CommRing
import Mathlib.Algebra.MvPolynomial.Nilpotent
import AlgebraTutor.Proofs.Polynomial.Value
import AlgebraTutor.Proofs.Tree.Interpretation
import AlgebraTutor.Tree.Simplify

/-!
# The polynomial that a tree denotes

`Tree.Denotes` says, constructor by constructor, which polynomial a tree stands for, without a word about how it is
computed. `Tree.polynomial?` computes exactly that: it answers if and only if the tree denotes a polynomial, with the
canonical list of its terms. Since such a list is unique, a tree that denotes a polynomial simplifies to the layout of
that polynomial and of nothing else.
-/

namespace AlgebraTutor.Tree

open MvPolynomial (C X)

/-- The tree stands for the polynomial: numbers and unknowns by themselves, operators by the operations on polynomials.
A divisor is a number other than zero, and an exponent a natural number without unknowns. -/
inductive Denotes : Tree → MvPolynomial String ℚ → Prop
  | const (value : ℚ) : Denotes (.const value) (C value)
  | symbol {name : String} (hname : isNamedConstant name = false) : Denotes (.symbol name) (X name)
  | paren {t : Tree} {f : MvPolynomial String ℚ} (ht : Denotes t f) : Denotes (.paren t) f
  | neg {t : Tree} {f : MvPolynomial String ℚ} (ht : Denotes t f) : Denotes (.apply .sub [t]) (-f)
  | add {t u : Tree} {f g : MvPolynomial String ℚ} (ht : Denotes t f) (hu : Denotes u g) :
    Denotes (.apply .add [t, u]) (f + g)
  | sub {t u : Tree} {f g : MvPolynomial String ℚ} (ht : Denotes t f) (hu : Denotes u g) :
    Denotes (.apply .sub [t, u]) (f - g)
  | mul {t u : Tree} {f g : MvPolynomial String ℚ} (ht : Denotes t f) (hu : Denotes u g) :
    Denotes (.apply .mul [t, u]) (f * g)
  | div {t u : Tree} {f : MvPolynomial String ℚ} {c : ℚ} (ht : Denotes t f) (hu : Denotes u (C c)) (hc : c ≠ 0) :
    Denotes (.apply .div [t, u]) (C c⁻¹ * f)
  | pow {t u : Tree} {f : MvPolynomial String ℚ} {n : ℕ} (ht : Denotes t f) (hu : Denotes u (C (n : ℚ)))
    (hconstant : u.isConstant = true) : Denotes (.apply .pow [t, u]) (f ^ n)

/-! ### The computed polynomial -/

theorem divisorOf?_eq_some_iff {p : Polynomial} (hp : p.Canonical) {c : ℚ} :
    divisorOf? p = some c ↔ p.toMv = C c ∧ c ≠ 0 := by
  rw [← Polynomial.constant?_eq_some_iff hp, divisorOf?]
  cases p.constant? with
  | none => simp
  | some d =>
    by_cases hd : d = 0
    · simp only [hd, if_true, reduceCtorEq, Option.some.injEq, false_iff, not_and, not_not]
      exact fun h => h.symm
    · simp only [hd, if_false, Option.some.injEq]
      exact ⟨fun h => ⟨h, h ▸ hd⟩, fun h => h.1⟩

theorem naturalOf?_eq_some_iff {p : Polynomial} (hp : p.Canonical) {n : ℕ} :
    naturalOf? p = some n ↔ p.toMv = C (n : ℚ) := by
  rw [← Polynomial.constant?_eq_some_iff hp, naturalOf?]
  cases p.constant? with
  | none => simp
  | some d =>
    simp only [Option.ite_none_right_eq_some, Option.some.injEq]
    constructor
    · rintro ⟨⟨hden, hnum⟩, rfl⟩
      rw [← Rat.num_div_den d, hden]
      simp only [Nat.cast_one, div_one, Rat.num_intCast]
      exact_mod_cast (Int.toNat_of_nonneg hnum).symm
    · rintro rfl
      simp

theorem polynomial?_sound {t : Tree} {p : Polynomial} (hp : t.polynomial? = some p) :
    p.Canonical ∧ t.Denotes p.toMv := by
  induction t using polynomial?.induct generalizing p with
  | case1 value =>
    obtain rfl := Option.some.inj hp
    exact ⟨Polynomial.canonical_const value, Polynomial.toMv_const value ▸ .const value⟩
  | case2 name hname => simp [polynomial?, hname] at hp
  | case3 name hname =>
    simp only [polynomial?, hname, Bool.false_eq_true, if_false, Option.some.injEq] at hp
    subst hp
    exact ⟨Polynomial.canonical_var name, Polynomial.toMv_var name ▸ .symbol (by simpa using hname)⟩
  | case4 content ih => exact (ih hp).imp_right .paren
  | case5 t ih =>
    obtain ⟨q, hq, rfl⟩ := Option.map_eq_some_iff.mp hp
    exact ⟨Polynomial.canonical_neg (ih hq).1, Polynomial.toMv_neg q ▸ .neg (ih hq).2⟩
  | case6 left right ihl ihr =>
    obtain ⟨q, hq, hp⟩ := Option.bind_eq_some_iff.mp hp
    obtain ⟨r, hr, rfl⟩ := Option.map_eq_some_iff.mp hp
    exact ⟨Polynomial.canonical_add (ihl hq).1 (ihr hr).1, Polynomial.toMv_add q r ▸ .add (ihl hq).2 (ihr hr).2⟩
  | case7 left right ihl ihr =>
    obtain ⟨q, hq, hp⟩ := Option.bind_eq_some_iff.mp hp
    obtain ⟨r, hr, rfl⟩ := Option.map_eq_some_iff.mp hp
    refine ⟨Polynomial.canonical_add (ihl hq).1 (Polynomial.canonical_neg (ihr hr).1), ?_⟩
    rw [Polynomial.toMv_add, Polynomial.toMv_neg, ← sub_eq_add_neg]
    exact .sub (ihl hq).2 (ihr hr).2
  | case8 left right ihl ihr =>
    obtain ⟨q, hq, hp⟩ := Option.bind_eq_some_iff.mp hp
    obtain ⟨r, hr, rfl⟩ := Option.map_eq_some_iff.mp hp
    exact ⟨Polynomial.canonical_mul (ihl hq).1 (ihr hr).1, Polynomial.toMv_mul q r ▸ .mul (ihl hq).2 (ihr hr).2⟩
  | case9 left right ihl ihr =>
    obtain ⟨q, hq, hp⟩ := Option.bind_eq_some_iff.mp hp
    obtain ⟨c, hc, rfl⟩ := Option.map_eq_some_iff.mp hp
    obtain ⟨r, hr, hc⟩ := Option.bind_eq_some_iff.mp hc
    obtain ⟨hvalue, hne⟩ := (divisorOf?_eq_some_iff (ihr hr).1).mp hc
    refine ⟨Polynomial.canonical_scale (ihl hq).1 _, ?_⟩
    rw [Polynomial.toMv_scale, one_div]
    exact .div (ihl hq).2 (hvalue ▸ (ihr hr).2) hne
  | case10 left right hconstant ihl ihr =>
    simp only [polynomial?, hconstant, if_true] at hp
    obtain ⟨q, hq, hp⟩ := Option.bind_eq_some_iff.mp hp
    obtain ⟨n, hn, rfl⟩ := Option.map_eq_some_iff.mp hp
    obtain ⟨r, hr, hn⟩ := Option.bind_eq_some_iff.mp hn
    have hvalue := (naturalOf?_eq_some_iff (ihr hr).1).mp hn
    exact ⟨Polynomial.canonical_pow (ihl hq).1 n,
      Polynomial.toMv_pow q n ▸ .pow (ihl hq).2 (hvalue ▸ (ihr hr).2) hconstant⟩
  | case11 left right hconstant => simp [polynomial?, hconstant] at hp
  | case12 t => rw [polynomial?] at hp <;> simp_all

theorem Denotes.polynomial? {t : Tree} {f : MvPolynomial String ℚ} (ht : t.Denotes f) :
    ∃ p, t.polynomial? = some p ∧ p.Canonical ∧ p.toMv = f := by
  induction ht with
  | const value => exact ⟨_, rfl, Polynomial.canonical_const value, Polynomial.toMv_const value⟩
  | @symbol name hname =>
    exact ⟨.var name, by simp [Tree.polynomial?, hname], Polynomial.canonical_var name, Polynomial.toMv_var name⟩
  | paren _ ih => exact ih
  | neg _ ih =>
    obtain ⟨p, hread, hp, rfl⟩ := ih
    exact ⟨p.neg, by simp [Tree.polynomial?, hread], Polynomial.canonical_neg hp, Polynomial.toMv_neg p⟩
  | add _ _ ihl ihr =>
    obtain ⟨p, hleft, hp, rfl⟩ := ihl
    obtain ⟨q, hright, hq, rfl⟩ := ihr
    exact ⟨p.add q, by simp [Tree.polynomial?, hleft, hright], Polynomial.canonical_add hp hq, Polynomial.toMv_add p q⟩
  | sub _ _ ihl ihr =>
    obtain ⟨p, hleft, hp, rfl⟩ := ihl
    obtain ⟨q, hright, hq, rfl⟩ := ihr
    refine ⟨p.add q.neg, by simp [Tree.polynomial?, hleft, hright],
      Polynomial.canonical_add hp (Polynomial.canonical_neg hq), ?_⟩
    rw [Polynomial.toMv_add, Polynomial.toMv_neg, sub_eq_add_neg]
  | mul _ _ ihl ihr =>
    obtain ⟨p, hleft, hp, rfl⟩ := ihl
    obtain ⟨q, hright, hq, rfl⟩ := ihr
    exact ⟨p.mul q, by simp [Tree.polynomial?, hleft, hright], Polynomial.canonical_mul hp hq, Polynomial.toMv_mul p q⟩
  | @div _ _ _ c _ _ hc ihl ihr =>
    obtain ⟨p, hleft, hp, rfl⟩ := ihl
    obtain ⟨q, hright, hq, hvalue⟩ := ihr
    have hdivisor := (divisorOf?_eq_some_iff hq).mpr ⟨hvalue, hc⟩
    refine ⟨p.scale (1 / c), by simp [Tree.polynomial?, hleft, hright, hdivisor], Polynomial.canonical_scale hp _, ?_⟩
    rw [Polynomial.toMv_scale, one_div]
  | @pow _ _ _ n _ _ hconstant ihl ihr =>
    obtain ⟨p, hleft, hp, rfl⟩ := ihl
    obtain ⟨q, hright, hq, hvalue⟩ := ihr
    have hnatural := (naturalOf?_eq_some_iff hq).mpr hvalue
    exact ⟨p.pow n, by simp [Tree.polynomial?, hconstant, hleft, hright, hnatural], Polynomial.canonical_pow hp n,
      Polynomial.toMv_pow p n⟩

/-- The computed polynomial of a tree is the canonical list of the polynomial that the tree denotes. -/
theorem polynomial?_eq_some_iff {t : Tree} {p : Polynomial} :
    t.polynomial? = some p ↔ p.Canonical ∧ t.Denotes p.toMv := by
  refine ⟨polynomial?_sound, fun ⟨hp, ht⟩ => ?_⟩
  obtain ⟨q, hread, hq, hvalue⟩ := ht.polynomial?
  rw [hread, Polynomial.toMv_injective hq hp hvalue]

theorem Denotes.unique {t : Tree} {f g : MvPolynomial String ℚ} (hf : t.Denotes f) (hg : t.Denotes g) : f = g := by
  obtain ⟨p, hp, -, rfl⟩ := hf.polynomial?
  obtain ⟨q, hq, -, rfl⟩ := hg.polynomial?
  rw [Option.some.inj (hp.symm.trans hq)]

theorem Denotes.exists_canonical {t : Tree} {f : MvPolynomial String ℚ} (ht : t.Denotes f) :
    ∃ p : Polynomial, p.Canonical ∧ p.toMv = f :=
  ht.polynomial?.imp fun _ h => h.2

theorem simplify_of_denotes {t : Tree} {p : Polynomial} (hp : p.Canonical) (ht : t.Denotes p.toMv) :
    t.simplify = .ok p.toTree := by
  rw [simplify, polynomial?_eq_some_iff.mpr ⟨hp, ht⟩]

/-- A polynomial divides one exactly if it is a number other than zero. -/
theorem isUnit_divisor {h k : MvPolynomial String ℚ} (hinverse : h * k = 1) : ∃ c, c ≠ 0 ∧ h = C c ∧ k = C c⁻¹ := by
  obtain ⟨c, hc, rfl⟩ := MvPolynomial.isUnit_iff_eq_C_of_isReduced.mp (IsUnit.of_mul_eq_one k hinverse)
  refine ⟨c, hc.ne_zero, rfl, ?_⟩
  have hscaled : C c⁻¹ * (C c * k) = C c⁻¹ := by rw [hinverse, mul_one]
  rwa [← mul_assoc, ← map_mul, inv_mul_cancel₀ hc.ne_zero, map_one, one_mul] at hscaled

/-- Trees stand for the polynomials that they denote. -/
noncomputable def interpretation : Interpretation (MvPolynomial String ℚ) where
  Holds := Denotes
  scalar := C
  const_iff := ⟨fun h => by cases h; rfl, by rintro rfl; exact .const _⟩
  paren_iff := ⟨fun h => by cases h; assumption, .paren⟩
  neg_iff {t f} := ⟨fun h => by cases h with | neg ht => rwa [neg_neg], fun h => neg_neg f ▸ .neg h⟩
  add_iff :=
    ⟨fun h => by cases h with | add ht hu => exact ⟨_, _, ht, hu, rfl⟩, by rintro ⟨_, _, ht, hu, rfl⟩; exact .add ht hu⟩
  sub_iff :=
    ⟨fun h => by cases h with | sub ht hu => exact ⟨_, _, ht, hu, rfl⟩, by rintro ⟨_, _, ht, hu, rfl⟩; exact .sub ht hu⟩
  mul_iff :=
    ⟨fun h => by cases h with | mul ht hu => exact ⟨_, _, ht, hu, rfl⟩, by rintro ⟨_, _, ht, hu, rfl⟩; exact .mul ht hu⟩
  div_iff {t u f} := by
    constructor
    · intro h
      cases h with
      | @div _ _ g c ht hu hc =>
        exact ⟨g, C c, C c⁻¹, ht, hu, by rw [← map_mul, mul_inv_cancel₀ hc, map_one], mul_comm _ _⟩
    · rintro ⟨g, h, k, ht, hu, hinverse, rfl⟩
      obtain ⟨c, hc, rfl, rfl⟩ := isUnit_divisor hinverse
      rw [mul_comm]
      exact .div ht hu hc
  IsPower g h f := ∃ n : ℕ, h = C (n : ℚ) ∧ g ^ n = f
  pow_iff {t u f} := by
    constructor
    · intro h
      cases h with
      | pow ht hu hconstant => exact ⟨hconstant, _, _, ht, hu, _, rfl, rfl⟩
    · rintro ⟨hconstant, g, h, ht, hu, n, rfl, rfl⟩
      exact .pow ht hu hconstant
  shape h := by
    cases h with
    | neg => exact .inl ⟨_, rfl, rfl⟩
    | add | sub | mul | div | pow => exact .inr (.inl ⟨_, _, rfl, rfl⟩)

/-- Every unknown of the polynomial is written in the tree. -/
theorem Denotes.mem_unknowns_of_mem_vars {t : Tree} {f : MvPolynomial String ℚ} (ht : t.Denotes f) {v : String}
    (hv : v ∈ f.vars) : v ∈ t.unknowns := by
  rw [mem_unknowns]
  induction ht with
  | const value => simp at hv
  | @symbol name hname =>
    rw [MvPolynomial.vars_X, Finset.mem_singleton] at hv
    subst hv
    exact ⟨by simp [nodes], hname⟩
  | paren _ ih => exact (ih hv).imp_left fun h => by simp [nodes, h]
  | neg _ ih =>
    rw [MvPolynomial.vars_neg] at hv
    exact (ih hv).imp_left fun h => by simp [nodes, nodesAll, h]
  | add _ _ ihl ihr =>
    rcases Finset.mem_union.mp (MvPolynomial.vars_add_subset _ _ hv) with hv | hv
    · exact (ihl hv).imp_left fun h => by simp [nodes, nodesAll, h]
    · exact (ihr hv).imp_left fun h => by simp [nodes, nodesAll, h]
  | sub _ _ ihl ihr =>
    rcases Finset.mem_union.mp (MvPolynomial.vars_sub_subset _ hv) with hv | hv
    · exact (ihl hv).imp_left fun h => by simp [nodes, nodesAll, h]
    · exact (ihr hv).imp_left fun h => by simp [nodes, nodesAll, h]
  | mul _ _ ihl ihr =>
    rcases Finset.mem_union.mp (MvPolynomial.vars_mul _ _ hv) with hv | hv
    · exact (ihl hv).imp_left fun h => by simp [nodes, nodesAll, h]
    · exact (ihr hv).imp_left fun h => by simp [nodes, nodesAll, h]
  | div _ _ _ ihl _ =>
    rcases Finset.mem_union.mp (MvPolynomial.vars_mul _ _ hv) with hv | hv
    · simp at hv
    · exact (ihl hv).imp_left fun h => by simp [nodes, nodesAll, h]
  | pow _ _ _ ihl _ => exact (ihl (MvPolynomial.vars_pow _ _ hv)).imp_left fun h => by simp [nodes, nodesAll, h]

end AlgebraTutor.Tree
