import AlgebraTutor.Proofs.Tree.Denotes

/-!
# The layout of a polynomial

Terms laid out one after another denote their sum, whatever their order, so the layout of a polynomial denotes that
polynomial. The trees that come out are of few shapes, and none of them holds a parenthesis: a term is a chain of
factors behind a number or a sign, over a number or not, and a sum is a chain of terms.
-/

namespace AlgebraTutor

open MvPolynomial (C X monomial)

namespace Polynomial

/-- The tree of terms in the given order. -/
def layout : List (Monomial × Rat) → Tree
  | [] => .const 0
  | (m, c) :: rest => appendTerms (termTree m c) rest

theorem toTree_eq_layout (p : Polynomial) : p.toTree = layout p.displayOrder := by
  rw [toTree]
  split
  · rename_i h
    rw [h, layout]
  · rename_i h
    rw [h, layout]

/-- A single term is laid out alone. -/
theorem toTree_singleton (m : Monomial) (c : ℚ) : toTree [(m, c)] = termTree m c := by
  rcases m with _ | ⟨f, _ | ⟨g, m⟩⟩ <;> rfl

theorem displayOrder_perm (p : Polynomial) : List.Perm p.displayOrder p := by
  unfold displayOrder
  split
  · split
    · exact .swap _ _ _
    · exact .refl _
  · exact .refl _

/-- No unknown of the terms is called like a number. -/
def Unreserved (p : List (Monomial × Rat)) : Prop :=
  ∀ t ∈ p, ∀ f ∈ t.1, Tree.isNamedConstant f.1 = false

end Polynomial

/-! ### What the trees denote -/

namespace Tree

theorem Denotes.foldl_mul {t : Tree} {f : MvPolynomial String ℚ} (ht : t.Denotes f) {us : List Tree}
    {gs : List (MvPolynomial String ℚ)} (hus : List.Forall₂ Denotes us gs) :
    (us.foldl (binary .mul) t).Denotes (f * gs.prod) := by
  induction hus generalizing t f with
  | nil => simpa using ht
  | cons hu _ ih =>
    rw [List.foldl_cons, List.prod_cons, ← mul_assoc]
    exact ih (interpretation.holds_binary_mul ht hu)

theorem Denotes.productOf {ts : List Tree} {fs : List (MvPolynomial String ℚ)} (h : List.Forall₂ Denotes ts fs) :
    (productOf ts).Denotes fs.prod := by
  cases h with
  | nil => exact .const 1
  | cons ht h =>
    rw [List.prod_cons]
    exact ht.foldl_mul h

theorem Denotes.integerMultiple {ts : List Tree} {fs : List (MvPolynomial String ℚ)} (n : ℤ)
    (h : List.Forall₂ Denotes ts fs) : (integerMultiple n ts).Denotes (C (n : ℚ) * fs.prod) := by
  unfold Tree.integerMultiple
  split
  · rename_i hn
    rw [hn, Int.cast_one, map_one, one_mul]
    exact .productOf h
  · split
    · rename_i hn
      rw [hn, Int.cast_neg, Int.cast_one, map_neg, map_one, neg_one_mul]
      cases h with
      | nil =>
        have hone : (-(List.prod []) : MvPolynomial String ℚ) = C (-1) := by simp
        rw [hone]
        exact .const (-1)
      | @cons t f _ _ ht h =>
        have hnegate : t.negate.Denotes (-f) := interpretation.holds_negate.mpr (by rwa [neg_neg])
        rw [List.prod_cons, ← neg_mul]
        exact hnegate.foldl_mul h
    · exact .productOf (.cons (.const n) h)

theorem denotes_ofRat (c : ℚ) : (ofRat c).Denotes (C c) := by
  unfold ofRat
  split
  · rename_i hden
    have hc : (c.num : ℚ) = c := by rw [← Rat.num_div_den c]; simp [hden]
    exact hc ▸ .const (c.num : ℚ)
  · have hc : (C c : MvPolynomial String ℚ) = C (c.den : ℚ)⁻¹ * C (c.num : ℚ) := by
      rw [← map_mul, inv_mul_eq_div, Rat.num_div_den]
    rw [hc]
    exact interpretation.holds_binary rfl (.div (.const _) (.const _) (by simp))

end Tree

namespace Monomial

theorem denotes_factorTree {f : String × Nat} (hname : Tree.isNamedConstant f.1 = false) :
    (factorTree f).Denotes (X f.1 ^ f.2) := by
  unfold factorTree
  split
  · rename_i hexponent
    rw [hexponent, pow_one]
    exact .symbol hname
  · exact Tree.interpretation.holds_binary rfl (.pow (.symbol hname) (.const _) rfl)

theorem monomial_exponents (m : Monomial) (c : ℚ) :
    monomial m.exponents c = C c * (m.map fun f => (X f.1 ^ f.2 : MvPolynomial String ℚ)).prod := by
  induction m with
  | nil => simp
  | cons f m ih => rw [exponents_cons, MvPolynomial.monomial_single_add, ih, List.map_cons, List.prod_cons, mul_left_comm]

theorem forall₂_toTrees {m : Monomial} (hm : ∀ f ∈ m, Tree.isNamedConstant f.1 = false) :
    List.Forall₂ Tree.Denotes m.toTrees (m.map fun f => X f.1 ^ f.2) := by
  rw [toTrees, List.forall₂_map_left_iff, List.forall₂_map_right_iff, List.forall₂_same]
  exact fun f hf => denotes_factorTree (hm f hf)

end Monomial

namespace Polynomial

theorem denotes_termTree {m : Monomial} (hm : ∀ f ∈ m, Tree.isNamedConstant f.1 = false) (c : ℚ) :
    (termTree m c).Denotes (monomial m.exponents c) := by
  rw [Monomial.monomial_exponents]
  unfold termTree
  split
  · rename_i hempty
    rw [List.isEmpty_iff.mp hempty, List.map_nil, List.prod_nil, mul_one]
    exact Tree.denotes_ofRat c
  · have hnumerator := Tree.Denotes.integerMultiple c.num (Monomial.forall₂_toTrees hm)
    split
    · rename_i hden
      have hc : (c.num : ℚ) = c := by rw [← Rat.num_div_den c]; simp [hden]
      rwa [hc] at hnumerator
    · have hc : (C c : MvPolynomial String ℚ) = C (c.den : ℚ)⁻¹ * C (c.num : ℚ) := by
        rw [← map_mul, inv_mul_eq_div, Rat.num_div_den]
      rw [hc, mul_assoc]
      exact Tree.interpretation.holds_binary rfl (.div hnumerator (.const _) (by simp))

theorem denotes_appendTerms {t : Tree} {f : MvPolynomial String ℚ} (ht : t.Denotes f) {rest : List (Monomial × Rat)}
    (hrest : Unreserved rest) : (appendTerms t rest).Denotes (f + toMv rest) := by
  induction rest generalizing t f with
  | nil => simpa [appendTerms] using ht
  | cons s rest ih =>
    have hs : ∀ f ∈ s.1, Tree.isNamedConstant f.1 = false := hrest s (by simp)
    rw [appendTerms, toMv_cons, ← add_assoc]
    refine ih ?_ fun r hr => hrest r (by simp [hr])
    split
    · have hvalue : f + monomial s.1.exponents s.2 = f - monomial s.1.exponents (-s.2) := by
        rw [map_neg, sub_neg_eq_add]
      rw [hvalue]
      exact Tree.interpretation.holds_binary_sub ht (denotes_termTree hs _)
    · exact Tree.interpretation.holds_binary_add ht (denotes_termTree hs _)

theorem denotes_layout {l : List (Monomial × Rat)} (hl : Unreserved l) : (layout l).Denotes (toMv l) := by
  cases l with
  | nil =>
    rw [toMv_nil, ← MvPolynomial.C_0]
    exact .const 0
  | cons s rest =>
    rw [toMv_cons]
    exact denotes_appendTerms (denotes_termTree (hl s (by simp)) s.2) fun r hr => hl r (by simp [hr])

theorem toMv_perm {l l' : List (Monomial × Rat)} (h : l.Perm l') : toMv l = toMv l' :=
  (h.map _).sum_eq

theorem Unreserved.perm {l l' : List (Monomial × Rat)} (hl : Unreserved l) (h : l'.Perm l) : Unreserved l' :=
  fun t ht => hl t (h.subset ht)

theorem denotes_toTree {p : Polynomial} (hp : Unreserved p) : p.toTree.Denotes p.toMv := by
  rw [toTree_eq_layout, ← toMv_perm p.displayOrder_perm]
  exact denotes_layout (hp.perm p.displayOrder_perm)

/-- A canonical list that a tree denotes has no unknown that is called like a number. -/
theorem unreserved_of_denotes {p : Polynomial} (hp : p.Canonical) {t : Tree} (ht : t.Denotes p.toMv) : Unreserved p :=
  fun _ hs _ hf => (Tree.mem_unknowns.mp (ht.mem_unknowns_of_mem_vars (mem_vars_of_mem hp hs hf))).2

end Polynomial

end AlgebraTutor
