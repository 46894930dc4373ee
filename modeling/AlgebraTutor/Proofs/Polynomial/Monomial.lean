import Mathlib.Data.Finsupp.Lex
import Mathlib.Data.String.Basic
import Mathlib.Tactic.Abel
import AlgebraTutor.Polynomial.Monomial

/-!
# The exponents of a monomial

A monomial is a list of unknowns with their exponents, and its meaning is the function that gives every unknown its
exponent. On lists in the canonical form, names increasing and exponents positive, the meaning is faithful, products and
powers stay in that form, and `Monomial.compare` is the lexicographic order of the exponents.
-/

namespace AlgebraTutor.Monomial

/-- The exponent of every unknown in a monomial. -/
noncomputable def exponents (m : Monomial) : String →₀ ℕ :=
  (m.map fun f => Finsupp.single f.1 f.2).sum

@[simp]
theorem exponents_nil : exponents [] = 0 :=
  rfl

@[simp]
theorem exponents_cons (f : String × Nat) (m : Monomial) :
    exponents (f :: m) = Finsupp.single f.1 f.2 + exponents m := by
  simp [exponents]

/-- Names increasing and exponents positive. -/
structure Canonical (m : Monomial) : Prop where
  increasing : m.Pairwise fun f g => f.1 < g.1
  positive : ∀ f ∈ m, 0 < f.2

theorem canonical_nil : Canonical [] :=
  ⟨.nil, by simp⟩

theorem canonical_cons {f : String × Nat} {m : Monomial} :
    Canonical (f :: m) ↔ (∀ g ∈ m, f.1 < g.1) ∧ 0 < f.2 ∧ m.Canonical := by
  constructor
  · rintro ⟨hincreasing, hpositive⟩
    rw [List.pairwise_cons] at hincreasing
    exact ⟨hincreasing.1, hpositive f (by simp), hincreasing.2, fun g hg => hpositive g (by simp [hg])⟩
  · rintro ⟨hbefore, hpositive, hm⟩
    refine ⟨List.pairwise_cons.mpr ⟨hbefore, hm.increasing⟩, fun g hg => ?_⟩
    rcases List.mem_cons.mp hg with rfl | hg
    · exact hpositive
    · exact hm.positive g hg

theorem canonical_var (name : String) : (var name).Canonical :=
  canonical_cons.mpr ⟨by simp, Nat.one_pos, canonical_nil⟩

/-! ### Exponents at a name -/

theorem exponents_eq_zero {m : Monomial} {v : String} (hv : ∀ f ∈ m, f.1 ≠ v) : m.exponents v = 0 := by
  induction m with
  | nil => simp
  | cons f m ih =>
    have hf : f.1 ≠ v := hv f (by simp)
    rw [exponents_cons, Finsupp.add_apply, ih fun g hg => hv g (by simp [hg]), Finsupp.single_eq_of_ne hf.symm]

theorem exponents_tail_eq_zero {f : String × Nat} {m : Monomial} (hm : Canonical (f :: m)) {v : String} (hv : v ≤ f.1) :
    m.exponents v = 0 :=
  exponents_eq_zero fun g hg => ((hv.trans_lt ((canonical_cons.mp hm).1 g hg)).ne').trans_eq rfl

theorem exponents_head {f : String × Nat} {m : Monomial} (hm : Canonical (f :: m)) : exponents (f :: m) f.1 = f.2 := by
  rw [exponents_cons, Finsupp.add_apply, exponents_tail_eq_zero hm le_rfl, Finsupp.single_eq_same, Nat.add_zero]

theorem exponents_before {f : String × Nat} {m : Monomial} (hm : Canonical (f :: m)) {v : String} (hv : v < f.1) :
    exponents (f :: m) v = 0 := by
  rw [exponents_cons, Finsupp.add_apply, exponents_tail_eq_zero hm hv.le, Finsupp.single_eq_of_ne hv.ne]

/-! ### The order -/

theorem compare_eq_iff {m n : Monomial} : compare m n = .eq ↔ m = n := by
  fun_induction compare m n with
  | case1 => simp
  | case2 => simp
  | case3 => simp
  | case4 v d m w e n hvw => simp [hvw.ne]
  | case5 v d m w e n hvw hwv => simp [hwv.ne']
  | case6 v d m w e n hvw hwv hde => simp [hde.ne]
  | case7 v d m w e n hvw hwv hde hed => simp [hed.ne']
  | case8 v d m w e n hvw hwv hde hed ih =>
    obtain rfl := le_antisymm (not_lt.mp hwv) (not_lt.mp hvw)
    obtain rfl := le_antisymm (not_lt.mp hed) (not_lt.mp hde)
    simp [ih]

theorem compare_swap (m n : Monomial) : compare n m = (compare m n).swap := by
  fun_induction compare m n with
  | case1 => rfl
  | case2 => rfl
  | case3 => rfl
  | case4 v d m w e n hvw => simp only [compare, hvw, hvw.not_gt, if_true, if_false, Ordering.swap]
  | case5 v d m w e n hvw hwv => simp only [compare, hwv, if_true, Ordering.swap]
  | case6 v d m w e n hvw hwv hde => simp only [compare, hvw, hwv, hde, hde.not_gt, if_true, if_false, Ordering.swap]
  | case7 v d m w e n hvw hwv hde hed => simp only [compare, hvw, hwv, hed, if_true, if_false, Ordering.swap]
  | case8 v d m w e n hvw hwv hde hed ih => simp only [compare, hvw, hwv, hde, hed, if_false, ih]

theorem exponents_lt_of_compare_lt {m n : Monomial} (hm : m.Canonical) (hn : n.Canonical) (hlt : compare m n = .lt) :
    toLex m.exponents < toLex n.exponents := by
  fun_induction compare m n with
  | case1 => simp at hlt
  | case2 f n =>
    exact Finsupp.Lex.lt_iff.mpr ⟨f.1, fun v hv => (exponents_before hn hv).symm,
      (exponents_head hn).symm ▸ (canonical_cons.mp hn).2.1⟩
  | case3 => simp at hlt
  | case4 => simp at hlt
  | case5 v d m w e n hvw hwv =>
    refine Finsupp.Lex.lt_iff.mpr ⟨w, fun u hu => ?_, ?_⟩
    · exact (exponents_before hm (hu.trans hwv)).trans (exponents_before hn hu).symm
    · exact (exponents_before hm hwv).trans_lt ((exponents_head hn).symm ▸ (canonical_cons.mp hn).2.1)
  | case6 v d m w e n hvw hwv hde =>
    obtain rfl := le_antisymm (not_lt.mp hwv) (not_lt.mp hvw)
    refine Finsupp.Lex.lt_iff.mpr ⟨v, fun u hu => ?_, ?_⟩
    · exact (exponents_before hm hu).trans (exponents_before hn hu).symm
    · exact ((exponents_head hm).trans_lt hde).trans_eq (exponents_head hn).symm
  | case7 => simp at hlt
  | case8 v d m w e n hvw hwv hde hed ih =>
    obtain rfl := le_antisymm (not_lt.mp hwv) (not_lt.mp hvw)
    obtain rfl := le_antisymm (not_lt.mp hed) (not_lt.mp hde)
    have htail := ih (canonical_cons.mp hm).2.2 (canonical_cons.mp hn).2.2 hlt
    rw [exponents_cons, exponents_cons, toLex_add, toLex_add]
    exact add_lt_add_right htail _

theorem exponents_lt_of_compare_gt {m n : Monomial} (hm : m.Canonical) (hn : n.Canonical) (hgt : compare m n = .gt) :
    toLex n.exponents < toLex m.exponents :=
  exponents_lt_of_compare_lt hn hm (by rw [compare_swap, hgt]; rfl)

/-- Canonical monomials with the same exponents are the same list. -/
theorem exponents_injective {m n : Monomial} (hm : m.Canonical) (hn : n.Canonical) (heq : m.exponents = n.exponents) :
    m = n := by
  rw [← compare_eq_iff]
  cases hcompare : compare m n with
  | eq => rfl
  | lt => exact absurd (exponents_lt_of_compare_lt hm hn hcompare) (by simp [heq])
  | gt => exact absurd (exponents_lt_of_compare_gt hm hn hcompare) (by simp [heq])

/-! ### Products and powers -/

theorem exponents_mul (m n : Monomial) : (mul m n).exponents = m.exponents + n.exponents := by
  fun_induction mul m n with
  | case1 n => simp
  | case2 m => simp
  | case3 v d m w e n hvw ih => simp only [exponents_cons, ih, add_assoc]
  | case4 v d m w e n hvw hwv ih => simp only [exponents_cons, ih]; abel
  | case5 v d m w e n hvw hwv ih =>
    obtain rfl := le_antisymm (not_lt.mp hwv) (not_lt.mp hvw)
    simp only [exponents_cons, ih, Finsupp.single_add]
    abel

theorem exponents_pow (m : Monomial) (n : Nat) : (pow m n).exponents = n • m.exponents := by
  unfold pow
  split
  · rename_i hn
    simp [hn]
  · induction m with
    | nil => simp
    | cons f m ih => rw [List.map_cons, exponents_cons, ih, exponents_cons, smul_add, Finsupp.smul_single, smul_eq_mul,
        Nat.mul_comm]

theorem exists_of_mem_mul {m n : Monomial} {f : String × Nat} (hf : f ∈ mul m n) :
    (∃ g ∈ m, g.1 = f.1) ∨ ∃ g ∈ n, g.1 = f.1 := by
  fun_induction mul m n with
  | case1 n => exact .inr ⟨f, hf, rfl⟩
  | case2 m => exact .inl ⟨f, hf, rfl⟩
  | case3 v d m w e n hvw ih =>
    rcases List.mem_cons.mp hf with rfl | hf
    · exact .inl ⟨(v, d), by simp, rfl⟩
    · exact (ih hf).imp_left fun ⟨g, hg, heq⟩ => ⟨g, by simp [hg], heq⟩
  | case4 v d m w e n hvw hwv ih =>
    rcases List.mem_cons.mp hf with rfl | hf
    · exact .inr ⟨(w, e), by simp, rfl⟩
    · exact (ih hf).imp_right fun ⟨g, hg, heq⟩ => ⟨g, by simp [hg], heq⟩
  | case5 v d m w e n hvw hwv ih =>
    rcases List.mem_cons.mp hf with rfl | hf
    · exact .inl ⟨(v, d), by simp, rfl⟩
    · exact (ih hf).imp (fun ⟨g, hg, heq⟩ => ⟨g, by simp [hg], heq⟩) fun ⟨g, hg, heq⟩ => ⟨g, by simp [hg], heq⟩

theorem canonical_mul {m n : Monomial} (hm : m.Canonical) (hn : n.Canonical) : (mul m n).Canonical := by
  fun_induction mul m n with
  | case1 n => exact hn
  | case2 m => exact hm
  | case3 v d m w e n hvw ih =>
    obtain ⟨hbefore, hpositive, hm⟩ := canonical_cons.mp hm
    refine canonical_cons.mpr ⟨fun f hf => ?_, hpositive, ih hm hn⟩
    rcases exists_of_mem_mul hf with ⟨g, hg, heq⟩ | ⟨g, hg, heq⟩
    · exact heq ▸ hbefore g hg
    · rcases List.mem_cons.mp hg with rfl | hg
      · exact heq ▸ hvw
      · exact heq ▸ hvw.trans ((canonical_cons.mp hn).1 g hg)
  | case4 v d m w e n hvw hwv ih =>
    obtain ⟨hbefore, hpositive, hn⟩ := canonical_cons.mp hn
    refine canonical_cons.mpr ⟨fun f hf => ?_, hpositive, ih hm hn⟩
    rcases exists_of_mem_mul hf with ⟨g, hg, heq⟩ | ⟨g, hg, heq⟩
    · rcases List.mem_cons.mp hg with rfl | hg
      · exact heq ▸ hwv
      · exact heq ▸ hwv.trans ((canonical_cons.mp hm).1 g hg)
    · exact heq ▸ hbefore g hg
  | case5 v d m w e n hvw hwv ih =>
    obtain rfl := le_antisymm (not_lt.mp hwv) (not_lt.mp hvw)
    obtain ⟨hbeforeLeft, hpositive, hm⟩ := canonical_cons.mp hm
    obtain ⟨hbeforeRight, -, hn⟩ := canonical_cons.mp hn
    refine canonical_cons.mpr ⟨fun f hf => ?_, Nat.add_pos_left hpositive e, ih hm hn⟩
    rcases exists_of_mem_mul hf with ⟨g, hg, heq⟩ | ⟨g, hg, heq⟩
    · exact heq ▸ hbeforeLeft g hg
    · exact heq ▸ hbeforeRight g hg

theorem canonical_pow {m : Monomial} (hm : m.Canonical) (n : Nat) : (pow m n).Canonical := by
  unfold pow
  split
  · exact canonical_nil
  · rename_i hn
    refine ⟨List.pairwise_map.mpr hm.increasing, fun f hf => ?_⟩
    obtain ⟨g, hg, rfl⟩ := List.mem_map.mp hf
    exact Nat.mul_pos (hm.positive g hg) (Nat.pos_of_ne_zero hn)

theorem exponents_of_mem {m : Monomial} (hm : m.Canonical) {f : String × Nat} (hf : f ∈ m) : m.exponents f.1 = f.2 := by
  induction m with
  | nil => simp at hf
  | cons g m ih =>
    rcases List.mem_cons.mp hf with rfl | hf
    · exact exponents_head hm
    · obtain ⟨hbefore, -, hm⟩ := canonical_cons.mp hm
      rw [exponents_cons, Finsupp.add_apply, Finsupp.single_eq_of_ne (hbefore f hf).ne', zero_add, ih hm hf]

theorem exponents_ne_zero_of_mem {m : Monomial} (hm : m.Canonical) {f : String × Nat} (hf : f ∈ m) :
    m.exponents f.1 ≠ 0 := by
  rw [exponents_of_mem hm hf]
  exact (hm.positive f hf).ne'

end AlgebraTutor.Monomial
