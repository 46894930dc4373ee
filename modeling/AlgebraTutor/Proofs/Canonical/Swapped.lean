import AlgebraTutor.Proofs.Canonical.Stages
import AlgebraTutor.Proofs.Completeness
import AlgebraTutor.Proofs.Input

/-!
# Equations with swapped sides

Swapping the sides of an equation turns their difference into its negative. What the choice of the sign answers is the same
for both, if exactly one of them leads with a minus. Between polynomials that is so, and the stages before and after it
fail for both or for none. But if a stage fails, the first tree is the answer, whose sign is as the sides stood, and the two
canonical trees differ.
-/

namespace AlgebraTutor

open AlgebraTutor.Tree (letterPolynomials simplify_of_denotes laidOut_toTree holds_toTree)

/-! ### Any lawful simplifier -/

section Lawful

variable {R : Type} [CommRing R] {s : Simplifier} {D : Interpretation R}

theorem Simplifier.Lawful.simplify_result (hs : s.Lawful D) {t v : Tree} {f : R} (ht : D.Holds t f)
    (hv : s.simplify t = .ok v) : s.simplify v = .ok v :=
  (hs.unique (hs.holds ht hv) ht).trans hv

open Canonical in
/-- Two differences with opposite values, of which one leads with a minus, have the same canonical tree unless a stage
fails. -/
theorem Simplifier.Lawful.tree_ofBase_neg (hs : s.Lawful D) {t u v w : Tree} {f : R} (ht : D.Holds t f) (hu : D.Holds u (-f))
    (hv : s.simplify t = .ok v) (hw : s.simplify u = .ok w) {negative : Bool} (hlead : s.hasNegativeLead v = .ok negative)
    (hlead' : s.hasNegativeLead w = .ok !negative) {config : Config} (hform : (Form.ofBase s config true v).degraded = false)
    (hform' : (Form.ofBase s config true w).degraded = false) :
    (Form.ofBase s config true v).tree = (Form.ofBase s config true w).tree := by
  have hvalue := hs.holds ht hv
  have hvalue' := hs.holds hu hw
  have htree := hs.tree_ofBase hvalue (hs.simplify_result ht hv) config true
  have htree' := hs.tree_ofBase hvalue' (hs.simplify_result hu hw) config true
  simp only [hform, Bool.not_false, Bool.and_self, if_true] at htree
  simp only [hform', Bool.not_false, Bool.and_self, if_true] at htree'
  obtain ⟨sign, hsign, htree⟩ := htree
  obtain ⟨sign', hsign', htree'⟩ := htree'
  obtain rfl := Except.ok.inj (hlead.symm.trans hsign)
  obtain rfl := Except.ok.inj (hlead'.symm.trans hsign')
  refine Except.ok.inj (htree.symm.trans (Eq.trans ?_ htree'))
  cases negative with
  | false =>
    have hback : D.Holds w.negate f := by simpa using hvalue'
    exact hs.unique hvalue hback
  | true =>
    have hback : D.Holds v.negate (-f) := by simpa using hvalue
    exact hs.unique hback hvalue'

end Lawful

/-! ### Polynomials -/

section Polynomial

variable {p : Polynomial} {t : Tree}

theorem Polynomial.holds_neg (ht : letterPolynomials.Holds t p.toMv) : letterPolynomials.Holds t.negate p.neg.toMv := by
  simpa [toMv_neg] using ht

/-- What can be written can be so with the other sign. -/
theorem Polynomial.composed_toTree_neg (hp : p.Canonical) (ht : letterPolynomials.Holds t p.toMv) {cs : List Char}
    (hcs : p.toTree.chars = .ok cs) : p.neg.toTree.Composed := by
  have hshort := hasShortIntegers_toTree.mp ((laidOut_toTree hp ht).built.composed hcs).hasShortIntegers
  exact (laidOut_toTree (canonical_neg hp) (holds_neg ht)).built.composed_of_hasShortIntegers
    (hasShortIntegers_toTree.mpr (isShortTerm_of_mem_neg.mpr hshort))

/-- What can be multiplied out can be so with the other sign. -/
theorem Simplifier.multiplyOut_toTree_neg (hp : p.Canonical) (ht : letterPolynomials.Holds t p.toMv) {rounds : Nat} {u : Tree}
    (h : standard.multiplyOut rounds p.toTree = .ok u) : standard.multiplyOut rounds p.neg.toTree = .ok p.neg.toTree := by
  cases rounds with
  | zero => rfl
  | succ rounds =>
    obtain ⟨before, hbefore, -⟩ := Answer.bind_eq_ok_iff.mp h
    obtain ⟨cs, hcs, -⟩ := Answer.bind_eq_ok_iff.mp hbefore
    exact multiplyOut_toTree (Polynomial.canonical_neg hp) (Polynomial.holds_neg ht) (Polynomial.composed_toTree_neg hp ht hcs) _

open Canonical in
theorem Canonical.exists_runStages_neg (hp : p.Canonical) (ht : letterPolynomials.Holds t p.toMv) (config : Config)
    (h : ∃ u, runStages (stages .standard config true) p.toTree = .ok u) :
    ∃ u, runStages (stages .standard config true) p.neg.toTree = .ok u := by
  obtain ⟨u, hu⟩ := h
  obtain ⟨spread, hspread, -⟩ := Answer.bind_eq_ok_iff.mp hu
  have hholds := holds_toTree hp ht
  have hfixed : Simplifier.standard.simplify p.toTree = .ok p.toTree := simplify_of_denotes hp hholds.1
  obtain rfl := Simplifier.lawful_standard.eq_of_multiplyOut hholds hfixed hspread
  rw [runStages_toTree hp ht hspread] at hu
  exact ⟨u, by rw [runStages_toTree (Polynomial.canonical_neg hp) (Polynomial.holds_neg ht)
    (Simplifier.multiplyOut_toTree_neg hp ht hspread), Polynomial.positive_neg hp, hu]⟩

open Canonical in
/-- A polynomial and its negative are degraded together. -/
theorem Canonical.degraded_ofBase_neg (hp : p.Canonical) (ht : letterPolynomials.Holds t p.toMv) (config : Config) :
    (Form.ofBase .standard config true p.neg.toTree).degraded = (Form.ofBase .standard config true p.toTree).degraded := by
  have hback := exists_runStages_neg (Polynomial.canonical_neg hp) (Polynomial.holds_neg ht) config
  rw [Polynomial.negated_twice hp] at hback
  have hiff : (Form.ofBase .standard config true p.neg.toTree).degraded = false ↔
      (Form.ofBase .standard config true p.toTree).degraded = false := by
    rw [degraded_ofBase_eq_false_iff, degraded_ofBase_eq_false_iff]
    exact ⟨hback, exists_runStages_neg hp ht config⟩
  exact Bool.eq_iff_iff.mpr (by simpa using hiff.not)

/-- A layout is that of the negative for zero alone. -/
theorem Polynomial.toTree_neg_eq_iff (hp : p.Canonical) (ht : letterPolynomials.Holds t p.toMv) :
    p.neg.toTree = p.toTree ↔ p = [] := by
  refine ⟨fun h => ?_, fun h => by rw [h]; rfl⟩
  have hsame := toTree_injective (canonical_neg hp) hp (unreserved_of_denotes (canonical_neg hp) (holds_neg ht).1)
    (unreserved_of_denotes hp ht.1) h
  have hzero : p.toMv = 0 := by
    have hvalue := congrArg toMv hsame
    rw [toMv_neg] at hvalue
    exact self_eq_neg.mp hvalue.symm
  exact toMv_injective hp canonical_nil hzero

open Canonical in
/-- A polynomial and its negative have one canonical tree unless a stage fails. -/
theorem Canonical.tree_ofBase_neg_eq_iff (hp : p.Canonical) (ht : letterPolynomials.Holds t p.toMv) (config : Config) :
    (Form.ofBase .standard config true p.neg.toTree).tree = (Form.ofBase .standard config true p.toTree).tree ↔
      (Form.ofBase .standard config true p.toTree).degraded = false := by
  have hneg := Polynomial.holds_neg ht
  have hcanonical := Polynomial.canonical_neg hp
  have htogether := degraded_ofBase_neg hp ht config
  by_cases hzero : p = []
  · subst hzero
    simp [degraded_ofBase hp ht (by simp) config true, Polynomial.neg, Polynomial.scale]
  cases hdegraded : (Form.ofBase .standard config true p.toTree).degraded with
  | true =>
    rw [hdegraded] at htogether
    rw [tree_of_degraded hdegraded, tree_of_degraded htogether, Polynomial.toTree_neg_eq_iff hp ht]
    simpa using hzero
  | false =>
    rw [hdegraded] at htogether
    have hlead' : Simplifier.standard.hasNegativeLead p.neg.toTree = .ok !p.hasNegativeLead := by
      rw [← Polynomial.hasNegativeLead_neg hp hzero]
      exact Tree.hasNegativeLead_toTree hcanonical hneg
    have htree := Simplifier.lawful_standard.tree_ofBase_neg ht (Polynomial.toMv_neg p ▸ hneg) (simplify_of_denotes hp ht.1)
      (simplify_of_denotes hcanonical hneg.1) (Tree.hasNegativeLead_toTree hp ht) hlead' hdegraded htogether
    simpa using htree.symm

end Polynomial

/-! ### Texts with swapped sides -/

/-- The blanks around a text without calls change nothing. -/
theorem Tree.ofText_trim {text : String} {t : Tree} (h : Tree.ofText text = .ok t) (hfree : t.CallFree) :
    Tree.ofText (Text.trim text) = .ok t := by
  have hreads := Reader.ReadsText.of_callFree h hfree
  have hplain : Text.plain (Text.trim text).toList = Text.plain text.toList := by
    rw [Text.plain, Text.trim, String.toList_ofList, Text.trimChars_trimChars, ← Text.plain]
  rw [← hplain] at hreads
  exact hreads.ofText

section Equation

variable {left right : String} {t u : Tree} {f g : MvPolynomial String ℚ}

theorem isPolynomialEquation_equationText (hleft : '=' ∉ left.toList) (hright : '=' ∉ right.toList)
    (haccepted : ∃ p, Input.ofText (Input.equationText left right) = .ok p) (ht : Tree.ofText left = .ok t)
    (hu : Tree.ofText right = .ok u) (hf : t.Denotes f) (hg : u.Denotes g) :
    IsPolynomialEquation (Input.equationText left right) f g := by
  obtain ⟨p, hp⟩ := haccepted
  exact ⟨p, _, _, t, u, hp, Input.equation_of_equationText hleft hright hp, Tree.ofText_trim ht hf.callFree,
    Tree.ofText_trim hu hg.callFree, hf, hg⟩

/-- Swapping the sides of an equation between polynomials changes nothing unless a stage fails. Both orders have a canonical
form, and both forms are degraded or none is. The canonical trees are the same exactly if none is; then the two equations
are equivalent. No stage fails if the integers of the canonical tree can be written and the exponents have a nearest
double. -/
theorem canonicalTree_swap_iff (config : Config) (hleft : '=' ∉ left.toList) (hright : '=' ∉ right.toList)
    (haccepted : ∃ p, Input.ofText (Input.equationText left right) = .ok p)
    (hswapped : ∃ p, Input.ofText (Input.equationText right left) = .ok p) (ht : Tree.ofText left = .ok t)
    (hu : Tree.ofText right = .ok u) (hf : t.Denotes f) (hg : u.Denotes g) :
    ∃ form form', Canonical.Form.ofText config (Input.equationText left right) = .ok form ∧
      Canonical.Form.ofText config (Input.equationText right left) = .ok form' ∧ form'.degraded = form.degraded ∧
      (form'.tree = form.tree ↔ form.degraded = false) ∧
      (form.degraded = false → equivalent config (Input.equationText left right) (Input.equationText right left) = true) ∧
      (form.tree.HasShortIntegers → FitsFloats (f - g) → form.degraded = false) := by
  have ha := isPolynomialEquation_equationText hleft hright haccepted ht hu hf hg
  have hb := isPolynomialEquation_equationText hright hleft hswapped hu ht hg hf
  obtain ⟨p, d, hp, hd, hvalue, hform⟩ := ha.exists_base config
  obtain ⟨q, -, hq, -, hvalue', hform'⟩ := hb.exists_base config
  obtain rfl : q = p.neg := by
    refine Polynomial.toMv_injective hq (Polynomial.canonical_neg hp) ?_
    rw [Polynomial.toMv_neg, hvalue, hvalue', neg_sub]
  have htree := Canonical.tree_ofBase_neg_eq_iff hp hd config
  refine ⟨_, _, hform, hform', Canonical.degraded_ofBase_neg hp hd config, htree, fun hdegraded => ?_, fun hshort hfits => ?_⟩
  · obtain ⟨input, hinput⟩ := haccepted
    obtain ⟨input', hinput'⟩ := hswapped
    have hequation : input.isEquation = true := by
      rw [Input.isEquation, Input.equation_of_equationText hleft hright hinput]
      rfl
    refine equivalent_of_canonicalTree_eq hinput hinput' hequation (by rw [canonicalTree, hform]; rfl) ?_
    rw [canonicalTree, hform', ← htree.mpr hdegraded]
    rfl
  · rw [← hvalue] at hfits
    have hsort := Polynomial.isSortable_of_canonical hp hd (Canonical.isShortTerm_of_ofBase hp hd hshort) hfits
    exact Canonical.degraded_ofBase hp hd hsort config true

open MvPolynomial (C X) in
/-- A line, either way. -/
theorem equivalent_swap_line :
    Input.equationText "2x" "y - 1" = "2x = y - 1" ∧ equivalent .standard "2x = y - 1" "y - 1 = 2x" = true := by
  have hx : (Tree.symbol "x").Denotes (X "x") := .symbol (by decide)
  have hy : (Tree.symbol "y").Denotes (X "y") := .symbol (by decide)
  have haccepted : ∃ p, Input.ofText (Input.equationText "2x" "y - 1") = .ok p :=
    ⟨⟨"2x = y - 1", some ("2x", "y - 1")⟩, by decide +kernel⟩
  have hswapped : ∃ p, Input.ofText (Input.equationText "y - 1" "2x") = .ok p :=
    ⟨⟨"y - 1 = 2x", some ("y - 1", "2x")⟩, by decide +kernel⟩
  obtain ⟨form, -, hform, -, -, -, hequivalent, -⟩ :=
    canonicalTree_swap_iff .standard (t := .apply .mul [.const 2, .symbol "x"]) (u := .apply .sub [.symbol "y", .const 1])
      (by decide) (by decide) haccepted hswapped (by decide +kernel) (by decide +kernel) (.mul (.const 2) hx)
      (.sub hy (.const 1))
  have hdegraded : (Canonical.Form.ofText .standard "2x = y - 1").map (·.degraded) = .ok false := by decide +kernel
  have htext : Input.equationText "2x" "y - 1" = "2x = y - 1" := by decide
  rw [htext] at hform
  rw [hform] at hdegraded
  exact ⟨htext, hequivalent (Except.ok.inj hdegraded)⟩

/-- An equation with a number too long to be written is not equivalent to itself with the sides swapped. -/
theorem equivalent_swap_overlong :
    (Input.check "x = 10^5000").toOption.isSome = true ∧ (Input.check "10^5000 = x").toOption.isSome = true ∧
      (canonicalTree .standard "x = 10^5000").toOption.isSome = true ∧
      (canonicalTree .standard "10^5000 = x").toOption.isSome = true ∧
      equivalent .standard "x = 10^5000" "10^5000 = x" = false := by
  decide +kernel

end Equation

end AlgebraTutor
