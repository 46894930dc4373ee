import AlgebraTutor.Proofs.Polynomial.Layout

/-!
# The normal form of a polynomial

A tree that denotes a polynomial simplifies to the layout of the canonical list of that polynomial. The layout denotes the
polynomial again, so two such trees have the same normal form exactly if they denote the same polynomial, and a normal form
is its own normal form.
-/

namespace AlgebraTutor

open MvPolynomial (C X)

namespace Tree

variable {t u v : Tree} {f g : MvPolynomial String ℚ}

/-- A tree that denotes a polynomial simplifies to a tree that denotes it as well. -/
theorem Denotes.simplify (ht : t.Denotes f) : ∃ v, t.simplify = .ok v ∧ v.Denotes f := by
  obtain ⟨p, hp, rfl⟩ := ht.exists_canonical
  exact ⟨p.toTree, simplify_of_denotes hp ht, Polynomial.denotes_toTree (Polynomial.unreserved_of_denotes hp ht)⟩

theorem Denotes.of_simplify (ht : t.Denotes f) (h : t.simplify = .ok v) : v.Denotes f := by
  obtain ⟨w, hw, hf⟩ := ht.simplify
  obtain rfl := Except.ok.inj (h.symm.trans hw)
  exact hf

/-- The normal form depends on the polynomial alone. -/
theorem Denotes.simplify_congr (ht : t.Denotes f) (hu : u.Denotes f) : t.simplify = u.simplify := by
  obtain ⟨p, hp, rfl⟩ := ht.exists_canonical
  rw [simplify_of_denotes hp ht, simplify_of_denotes hp hu]

/-- Equal normal forms are normal forms of one polynomial. -/
theorem Denotes.eq_of_simplify_eq (ht : t.Denotes f) (hu : u.Denotes g) (h : t.simplify = u.simplify) : f = g := by
  obtain ⟨v, hv, hf⟩ := ht.simplify
  exact hf.unique (hu.of_simplify (h.symm.trans hv))

/-- Simplification is a normal form of the trees that denote polynomials: it keeps the polynomial, a normal form is its own
normal form, and two trees share a normal form exactly if they denote the same polynomial. -/
theorem simplify_isNormalForm (ht : t.Denotes f) (hu : u.Denotes g) :
    (∃ v, t.simplify = .ok v ∧ v.Denotes f ∧ v.simplify = .ok v) ∧ (t.simplify = u.simplify ↔ f = g) := by
  constructor
  · obtain ⟨v, hv, hf⟩ := ht.simplify
    exact ⟨v, hv, hf, (hf.simplify_congr ht).trans hv⟩
  · constructor
    · exact ht.eq_of_simplify_eq hu
    · rintro rfl
      exact ht.simplify_congr hu

/-- The square of `x + 1`, and the same multiplied out as `x * x + 2 * x + 1`. -/
theorem simplify_square_of_sum :
    let x := Tree.symbol "x"
    let square := Tree.apply .pow [.paren (.apply .add [x, .const 1]), .const 2]
    let spread := Tree.apply .add [.apply .add [.apply .mul [x, x], .apply .mul [.const 2, x]], .const 1]
    square.Denotes ((X "x" + C 1) ^ 2) ∧ spread.Denotes (X "x" * X "x" + C 2 * X "x" + C 1) ∧
      square.simplify = spread.simplify := by
  intro x square spread
  have hx : x.Denotes (X "x") := .symbol (by decide)
  have htwo : (Tree.const 2).Denotes (C ((2 : ℕ) : ℚ)) := .const 2
  have hsquare : square.Denotes ((X "x" + C 1) ^ 2) := .pow (.paren (.add hx (.const 1))) htwo (by decide)
  have hspread : spread.Denotes (X "x" * X "x" + C 2 * X "x" + C 1) :=
    .add (.add (.mul hx hx) (.mul (.const 2) hx)) (.const 1)
  refine ⟨hsquare, hspread, (simplify_isNormalForm hsquare hspread).2.mpr ?_⟩
  rw [show (C 2 : MvPolynomial String ℚ) = 2 from map_ofNat C 2, map_one]
  ring

end Tree

end AlgebraTutor
