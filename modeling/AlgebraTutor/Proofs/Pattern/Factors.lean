import Mathlib.Data.Finsupp.Multiset
import AlgebraTutor.Proofs.Canonical.Polynomial
import AlgebraTutor.Proofs.Pattern.Quiet
import AlgebraTutor.Proofs.Polynomial.Terms

/-!
# Products of numbers and letters

A product of numbers and letters may be written in many shapes: with the factors in any order and nested in either direction,
with parentheses around any part of it, and with signs in front of any part that has a letter. Up to its sign it denotes the
monomial of its letters with the product of its numbers. With one number at most there is no arithmetic in it, and a factor of
zero, one or minus one is found, since the product is simplified to something that can be written.
-/

namespace AlgebraTutor.Tree

open MvPolynomial (C X monomial)

/-- The tree is a product of the numbers and of the letters, in the order of the lists. -/
inductive HasFactors : Tree → List Int → List String → Prop
  | number (k : Int) : HasFactors (.const k) [k] []
  | letter {v : String} (hv : IsUnknown v) : HasFactors (.symbol v) [] [v]
  | paren {t : Tree} {ks : List Int} {vs : List String} (h : HasFactors t ks vs) : HasFactors (.paren t) ks vs
  | sign {t : Tree} {ks : List Int} {vs : List String} (h : HasFactors t ks vs) (hvs : vs ≠ []) : HasFactors (.apply .sub [t]) ks vs
  | product {l r : Tree} {ks js : List Int} {vs ws : List String} (hl : HasFactors l ks vs) (hr : HasFactors r js ws) :
    HasFactors (.apply .mul [l, r]) (ks ++ js) (vs ++ ws)

variable {t n : Tree} {ks : List Int} {vs : List String}

namespace HasFactors

/-! ### Shapes -/

theorem stripParens (h : t.HasFactors ks vs) : t.stripParens.HasFactors ks vs := by
  induction h with
  | number k => exact .number k
  | letter hv => exact .letter hv
  | paren _ ih => exact ih
  | sign h hvs _ => exact .sign h hvs
  | product hl hr _ _ => exact .product hl hr

theorem isUnknown (h : t.HasFactors ks vs) : ∀ v ∈ vs, IsUnknown v := by
  induction h with
  | number k => simp
  | letter hv => simpa using hv
  | paren _ ih | sign _ _ ih => exact ih
  | product _ _ ihl ihr => exact List.forall_mem_append.mpr ⟨ihl, ihr⟩

theorem mem_unknowns (h : t.HasFactors ks vs) {v : String} : v ∈ t.unknowns ↔ v ∈ vs := by
  induction h with
  | number k => simp [unknowns_const]
  | letter hw =>
    simp only [Tree.mem_unknowns, nodes, List.mem_singleton, symbol.injEq]
    exact ⟨And.left, fun h => ⟨h, h ▸ hw.2⟩⟩
  | paren _ ih => rw [unknowns_paren, ih]
  | sign _ _ ih => rw [mem_unknowns_apply, ← ih]; simp
  | product _ _ ihl ihr => rw [mem_unknowns_apply, List.mem_append, ← ihl, ← ihr]; simp

theorem isConstant (h : t.HasFactors ks vs) : t.isConstant = vs.isEmpty := by
  rw [Bool.eq_iff_iff, Tree.isConstant, List.isEmpty_iff, List.isEmpty_iff, List.eq_nil_iff_forall_not_mem,
    List.eq_nil_iff_forall_not_mem]
  exact forall_congr' fun v => not_congr h.mem_unknowns

/-- A number has no letter and is the one number in it. -/
theorem of_stripParens_const {value : Rat} (h : t.HasFactors ks vs) (ht : t.stripParens = .const value) :
    ∃ k : Int, value = k ∧ ks = [k] ∧ vs = [] := by
  have hplain := h.stripParens
  rw [ht] at hplain
  generalize hvalue : Tree.const value = whole at hplain
  cases hplain with
  | number k => exact ⟨k, const.inj hvalue, rfl, rfl⟩
  | letter | paren | sign | product => simp at hvalue

theorem isNumber (h : t.HasFactors ks vs) (hnumber : t.isNumber = true) : ks.length = 1 ∧ vs = [] := by
  unfold Tree.isNumber at hnumber
  split at hnumber
  · obtain ⟨k, -, rfl, hvs⟩ := h.of_stripParens_const ‹_›
    exact ⟨rfl, hvs⟩
  · simp at hnumber

theorem isSum (h : t.HasFactors ks vs) : t.isSum = false := by
  have hplain := h.stripParens
  unfold Tree.isSum
  generalize t.stripParens = u at hplain
  cases hplain <;> rfl

/-- With one number at most, no part of the product is arithmetic on numbers. -/
theorem isNumberOperation (h : t.HasFactors ks vs) (hks : ks.length ≤ 1) : t.isNumberOperation = false := by
  cases h with
  | number | letter | paren => rfl
  | @sign u _ _ hu hvs =>
    refine Bool.eq_false_iff.mpr fun hnumbers => hvs (hu.isNumber ?_).2
    simpa [Tree.isNumberOperation] using hnumbers
  | @product l r _ _ _ _ hl hr =>
    refine Bool.eq_false_iff.mpr fun hnumbers => ?_
    obtain ⟨hnumber, hnumber'⟩ : l.isNumber = true ∧ r.isNumber = true := by simpa [Tree.isNumberOperation] using hnumbers
    have hlength := (hl.isNumber hnumber).1
    have hlength' := (hr.isNumber hnumber').1
    rw [List.length_append] at hks
    omega

theorem distributiveAt (h : t.HasFactors ks vs) : t.distributiveAt = .ok [] := by
  cases h with
  | number | letter | paren | sign => rfl
  | product hl hr => simp [Tree.distributiveAt, hl.isSum, hr.isSum]

/-- Each node of a product that is written is such a product, with a part of the numbers and of the letters. -/
theorem of_mem_nodes (h : t.HasFactors ks vs) {cs : List Char} (hcs : t.chars = .ok cs) (hn : n ∈ t.nodes) :
    (∃ ds, n.chars = .ok ds) ∧ ∃ js ws, n.HasFactors js ws ∧ js.Sublist ks ∧ ws.Sublist vs := by
  induction h generalizing cs with
  | number k =>
    obtain rfl := List.mem_singleton.mp hn
    exact ⟨⟨cs, hcs⟩, _, _, .number k, .refl _, .refl _⟩
  | letter hv =>
    obtain rfl := List.mem_singleton.mp hn
    exact ⟨⟨cs, hcs⟩, _, _, .letter hv, .refl _, .refl _⟩
  | paren h ih =>
    rcases List.mem_cons.mp hn with rfl | hn
    · exact ⟨⟨cs, hcs⟩, _, _, .paren h, .refl _, .refl _⟩
    · obtain ⟨ds, hds, -⟩ := chars_paren_eq_ok_iff.mp hcs
      exact ih hds hn
  | sign h hvs ih =>
    rcases List.mem_cons.mp hn with rfl | hn
    · exact ⟨⟨cs, hcs⟩, _, _, .sign h hvs, .refl _, .refl _⟩
    · obtain ⟨ds, hds, -⟩ := chars_sign_eq_ok_iff.mp hcs
      exact ih hds (by simpa [nodesAll] using hn)
  | product hl hr ihl ihr =>
    rcases List.mem_cons.mp hn with rfl | hn
    · exact ⟨⟨cs, hcs⟩, _, _, .product hl hr, .refl _, .refl _⟩
    · obtain ⟨_, -, ds, hds, es, hes, -⟩ := (chars_operator_eq_ok_iff rfl).mp hcs
      obtain ⟨a, ha, hmem⟩ := mem_nodesAll.mp hn
      rcases List.mem_pair.mp ha with rfl | rfl
      · obtain ⟨hchars, js, ws, hfactors, hjs, hws⟩ := ihl hds hmem
        exact ⟨hchars, js, ws, hfactors, hjs.trans (List.sublist_append_left _ _), hws.trans (List.sublist_append_left _ _)⟩
      · obtain ⟨hchars, js, ws, hfactors, hjs, hws⟩ := ihr hes hmem
        exact ⟨hchars, js, ws, hfactors, hjs.trans (List.sublist_append_right _ _), hws.trans (List.sublist_append_right _ _)⟩

/-! ### Values -/

/-- Up to its sign, the product denotes the monomial of its letters with the product of its numbers. -/
theorem exists_denotes (h : t.HasFactors ks vs) : ∃ c : ℚ, (c = ks.prod ∨ c = -ks.prod) ∧
    t.Denotes (monomial (Multiset.toFinsupp (vs : Multiset String)) c) := by
  induction h with
  | number k => exact ⟨k, by simp, by simpa using Denotes.const (k : ℚ)⟩
  | @letter v hv =>
    refine ⟨1, by simp, ?_⟩
    rw [Multiset.coe_singleton, Multiset.toFinsupp_singleton]
    exact .symbol hv.2
  | paren _ ih =>
    obtain ⟨c, hc, hdenotes⟩ := ih
    exact ⟨c, hc, .paren hdenotes⟩
  | sign _ _ ih =>
    obtain ⟨c, hc, hdenotes⟩ := ih
    refine ⟨-c, ?_, by simpa using hdenotes.neg⟩
    rcases hc with rfl | rfl <;> simp
  | product _ _ ihl ihr =>
    obtain ⟨c, hc, hl⟩ := ihl
    obtain ⟨d, hd, hr⟩ := ihr
    refine ⟨c * d, ?_, ?_⟩
    · rcases hc with rfl | rfl <;> rcases hd with rfl | rfl <;> simp
    · rw [← Multiset.coe_add, map_add, ← MvPolynomial.monomial_mul]
      exact .mul hl hr

theorem holds (h : t.HasFactors ks vs) {f : MvPolynomial String ℚ} (ht : t.Denotes f) : letterPolynomials.Holds t f :=
  ⟨ht, fun v hv => (h.isUnknown v (h.mem_unknowns.mp hv)).1⟩

/-! ### Idle factors -/

/-- A product with a factor that is not needed is simplified to something that can be written. -/
theorem exists_simplify (h : t.HasFactors ks vs) (hks : ks.prod = 0 ∨ ks.prod = 1 ∨ ks.prod = -1)
    (hvs : vs.length < 10 ^ digitLimit) : ∃ u s, t.simplify = .ok u ∧ u.text = .ok s := by
  obtain ⟨c, hc, ht⟩ := h.exists_denotes
  obtain ⟨p, hread, hp, hvalue⟩ := ht.polynomial?
  have hletters : letterPolynomials.Holds t p.toMv := h.holds (hvalue ▸ ht)
  have hshort : ∀ s ∈ p, Polynomial.IsShortTerm s := by
    intro s hs
    have hcoefficient := Polynomial.coeff_of_mem hp hs
    rw [hvalue, MvPolynomial.coeff_monomial] at hcoefficient
    have hnonzero := hp.nonzero s hs
    split_ifs at hcoefficient with hexponents
    · refine Polynomial.isShortTerm_of_unit ?_ fun f hf => isShort_of_lt ?_
      · rw [← hcoefficient] at hnonzero ⊢
        rcases hc with rfl | rfl <;> rcases hks with hks | hks | hks <;> simp [hks] at hnonzero ⊢
      · rw [← Monomial.exponents_of_mem (hp.monomials s hs) hf, ← hexponents, Multiset.toFinsupp_apply, Multiset.coe_count]
        exact List.count_le_length.trans_lt hvs
    · exact absurd hcoefficient.symm hnonzero
  have hcomposed := (laidOut_toTree hp hletters).built.composed_of_hasShortIntegers (Polynomial.hasShortIntegers_toTree.mpr hshort)
  obtain ⟨cs, hcs⟩ := hcomposed.exists_chars
  exact ⟨p.toTree, String.ofList cs, simplify_of_denotes hp hletters.1, by rw [text, hcs]; rfl⟩

/-- The idle number of a product is its only one. -/
theorem prod_of_hasIdleNumber (h : t.HasFactors ks vs) (hks : ks.length ≤ 1) (hidle : t.hasIdleNumber = true) :
    ks.prod = 0 ∨ ks.prod = 1 ∨ ks.prod = -1 := by
  cases h with
  | number | letter | paren | sign => simp [hasIdleNumber] at hidle
  | @product l r ks js _ _ hl hr =>
    obtain ⟨a, ha, value, hvalue, hneeded⟩ := hasNumber_eq_true_iff.mp hidle
    have hfactor {k : Int} (hk : value = k) : k = 0 ∨ k = 1 ∨ k = -1 := by
      simp only [hk, Bool.or_eq_true, beq_iff_eq, or_assoc] at hneeded
      exact_mod_cast hneeded
    rw [List.length_append] at hks
    rcases List.mem_pair.mp ha with rfl | rfl
    · obtain ⟨k, hk, rfl, -⟩ := hl.of_stripParens_const hvalue
      obtain rfl : js = [] := List.length_eq_zero_iff.mp (by rw [List.length_singleton] at hks; omega)
      simpa using hfactor hk
    · obtain ⟨k, hk, rfl, -⟩ := hr.of_stripParens_const hvalue
      obtain rfl : ks = [] := List.length_eq_zero_iff.mp (by rw [List.length_singleton] at hks; omega)
      simpa using hfactor hk

theorem exists_coefficientNormalizationAt (h : t.HasFactors ks vs) (hks : ks.length ≤ 1) (hvs : vs.length < 10 ^ digitLimit)
    {cs : List Char} (hcs : t.chars = .ok cs) : ∃ found, t.coefficientNormalizationAt = .ok found := by
  unfold coefficientNormalizationAt
  split_ifs with hquiet
  · exact ⟨[], rfl⟩
  · simp only [Bool.or_eq_true, Bool.not_eq_true', not_or, Bool.not_eq_true, Bool.not_eq_false] at hquiet
    obtain ⟨u, s, hu, hs⟩ := h.exists_simplify (h.prod_of_hasIdleNumber hks hquiet.2) hvs
    have htext : t.text = .ok (String.ofList cs) := by rw [text, hcs]; rfl
    exact ⟨_, by rw [htext, Answer.ok_bind, hu, Answer.ok_bind, hs]; rfl⟩

end HasFactors

end AlgebraTutor.Tree
