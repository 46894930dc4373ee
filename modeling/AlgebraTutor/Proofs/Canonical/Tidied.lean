import AlgebraTutor.Pattern.Basic
import AlgebraTutor.Proofs.Tree.Products

/-!
# Tidied trees

Tidying the coefficients of a tree puts every number in front of what it multiplies and drops the factors `0`, `1` and `-1`,
also where they come to light only when another one is dropped. Only one number of a product is looked at, the first one: of two
numbers the second may be left as it is, whatever it is.
-/

namespace AlgebraTutor.Tree

/-- The number of a product stands in front, and is needed there; behind a number there may be another one. -/
def TidyFactors (l r : Tree) : Prop :=
  (∀ c, l = .const c → c ≠ 0 ∧ c ≠ 1 ∧ c ≠ -1) ∧ ∀ c, r = .const c → ∃ b, l = .const b

variable {t u : Tree} {c : Rat}

theorem tidyFactors_const (hzero : c ≠ 0) (hone : c ≠ 1) (hminus : c ≠ -1) (t : Tree) : TidyFactors (const c) t :=
  ⟨fun _ hd => const.inj hd ▸ ⟨hzero, hone, hminus⟩, fun _ _ => ⟨c, rfl⟩⟩

theorem tidyFactors_of_ne (ht : ∀ c, t ≠ .const c) (hu : ∀ c, u ≠ .const c) : TidyFactors t u :=
  ⟨fun c hc => absurd hc (ht c), fun c hc => absurd hc (hu c)⟩

theorem products_coefficientProduct {whole : Tree} (ht : t.Products TidyFactors)
    (hwhole : c ≠ 0 → c ≠ 1 → c ≠ -1 → whole.Products TidyFactors) :
    (coefficientProduct c t whole).Products TidyFactors := by
  unfold coefficientProduct
  split_ifs with hzero hone hminus
  · exact products_const 0
  · exact ht
  · exact products_negate.mpr ht
  · exact hwhole hzero hone hminus

/-- One step makes a tidy product of two tidy factors, or none. -/
theorem products_coefficientNode (ht : t.Products TidyFactors) (hu : u.Products TidyFactors) (hplain : t.stripParens = t)
    (hplain' : u.stripParens = u) : (binary .mul t u).coefficientNode.Products TidyFactors := by
  have hproduct {l r : Tree} (hl : l.Products TidyFactors) (hr : r.Products TidyFactors) (hplain : l.stripParens = l)
      (hplain' : r.stripParens = r) (h : TidyFactors l r) : (binary .mul l r).Products TidyFactors :=
    products_product.mpr ⟨by rwa [hplain, hplain'], hl, hr⟩
  have hwhole : binary .mul t u = apply .mul [parenIf (leftNeedsParen .mul t) t, parenIf (rightNeedsParen .mul u) u] := by
    rw [binary, hplain, hplain']
  rw [hwhole, coefficientNode, stripParens_parenIf hplain, stripParens_parenIf hplain', ← hwhole]
  split
  · rename_i c
    exact products_coefficientProduct hu fun hzero hone hminus =>
      hproduct ht hu hplain hplain' (tidyFactors_const hzero hone hminus u)
  · rename_i c _
    exact products_coefficientProduct ht fun hzero hone hminus =>
      hproduct hu ht hplain' hplain (tidyFactors_const hzero hone hminus t)
  · rename_i hleft hright
    exact hproduct ht hu hplain hplain' (tidyFactors_of_ne (fun c => hleft c) fun c => hright c)

theorem changesProducts_coefficientNode : ChangesProducts coefficientNode := by
  intro t ht
  unfold coefficientNode
  split
  · exact absurd rfl (ht _ _)
  · rfl

/-- There is nothing to do in a tidy product. -/
theorem coefficientNode_eq_self {l r : Tree} (h : TidyFactors l.stripParens r.stripParens) :
    (apply .mul [l, r]).coefficientNode = apply .mul [l, r] := by
  rw [coefficientNode]
  split
  · rename_i c hl
    obtain ⟨hzero, hone, hminus⟩ := h.1 c hl
    rw [coefficientProduct, if_neg hzero, if_neg hone, if_neg hminus]
  · rename_i c hr hl
    obtain ⟨b, hb⟩ := h.2 c hr
    exact absurd hb (hl b)
  · rfl

theorem makesProducts_coefficientNode : MakesProducts TidyFactors coefficientNode where
  changes := changesProducts_coefficientNode
  product := fun _ _ => products_coefficientNode
  wellFormed := fun _ => WellFormed.coefficientNode

theorem keepsProducts_coefficientNode : KeepsProducts TidyFactors coefficientNode where
  changes := changesProducts_coefficientNode
  product := fun _ _ _ => coefficientNode_eq_self

/-- Whatever number is idle in a tidy product stands in an operation on numbers. -/
theorem coefficientNormalizationAt_of_tidyFactors {l r : Tree} (h : TidyFactors l.stripParens r.stripParens) :
    (apply .mul [l, r]).coefficientNormalizationAt = .ok [] := by
  have hidle (hoperation : (apply .mul [l, r]).isNumberOperation = false) : (apply .mul [l, r]).hasIdleNumber = false := by
    simp only [isNumberOperation, isNumber, hasIdleNumber, hasNumber, List.all_cons, List.any_cons] at hoperation ⊢
    cases hl : l.stripParens with
    | const b =>
      obtain ⟨hzero, hone, hminus⟩ := h.1 b hl
      cases hr : r.stripParens with
      | const c => simp [hl, hr] at hoperation
      | _ => simp [hzero, hone, hminus]
    | _ =>
      cases hr : r.stripParens with
      | const c =>
        obtain ⟨b, hb⟩ := h.2 c hr
        simp [hl] at hb
      | _ => rfl
  cases hoperation : (apply .mul [l, r]).isNumberOperation with
  | true => simp [coefficientNormalizationAt, hoperation]
  | false => simp [coefficientNormalizationAt, hidle hoperation]

/-- Tidying the coefficients answers wherever rebuilding does with some pass, and tidying again changes nothing: the first
factor of a product is none of `0`, `1` and `-1`, the second one is a number only behind another number, and no idle factor is
left for the detector to report. -/
theorem tidyCoefficients_finishes {f : Tree → Tree} (h : t.rebuild f = .ok u) :
    ∃ v, t.tidyCoefficients = .ok v ∧ v.tidyCoefficients = .ok v ∧
      ∀ left right, apply .mul [left, right] ∈ v.nodes →
        (∀ c, left.stripParens = .const c → c ≠ 0 ∧ c ≠ 1 ∧ c ≠ -1) ∧
        (∀ c, right.stripParens = .const c → ∃ b, left.stripParens = .const b) ∧
        (apply .mul [left, right]).coefficientNormalizationAt = .ok [] := by
  obtain ⟨v, hv, htidy, hagain⟩ := exists_rebuild_fixed makesProducts_coefficientNode keepsProducts_coefficientNode h
  refine ⟨v, hv, hagain, fun left right hmem => ?_⟩
  have hfactors := htidy left right hmem
  exact ⟨hfactors.1, hfactors.2, coefficientNormalizationAt_of_tidyFactors hfactors⟩

/-- In `1*x*(-1) + y*3` the first factor is dropped, which brings the second one to the letter, and that becomes a sign. -/
theorem tidyCoefficients_finishes_signed :
    let x := symbol "x"
    let y := symbol "y"
    let t := binary .add (binary .mul (binary .mul (.const 1) x) (.const (-1))) (binary .mul y (.const 3))
    let v := binary .add x.negate (binary .mul (.const 3) y)
    t.rebuild id = .ok t ∧ t.tidyCoefficients = .ok v ∧ v.tidyCoefficients = .ok v ∧
      (∀ c, (Tree.const 3).stripParens = .const c → c ≠ 0 ∧ c ≠ 1 ∧ c ≠ -1) ∧
      (binary .mul (.const 3) y).coefficientNormalizationAt = .ok [] := by
  intro x y t v
  have hrebuild : t.rebuild id = .ok t := by decide +kernel
  have hv : t.tidyCoefficients = .ok v := by decide +kernel
  obtain ⟨v', hv', hagain, hproducts⟩ := @tidyCoefficients_finishes _ _ id hrebuild
  obtain rfl := Except.ok.inj (hv.symm.trans hv')
  obtain ⟨hfirst, -, hquiet⟩ := hproducts (.const 3) y (by decide +kernel)
  exact ⟨hrebuild, hv, hagain, hfirst, hquiet⟩

/-- Of the two numbers of `2*1` only the first is looked at. -/
theorem exists_idle_factor :
    ∃ t v, ofText "2*1" = .ok t ∧ t.tidyCoefficients = .ok v ∧
      ∃ left right, apply .mul [left, right] ∈ v.nodes ∧ right.stripParens = .const 1 := by
  let t := binary .mul (.const 2) (.const 1)
  have hread : ofText "2*1" = .ok t := by decide +kernel
  have hv : t.tidyCoefficients = .ok t := by decide +kernel
  exact ⟨t, t, hread, hv, .const 2, .const 1, List.mem_cons_self, rfl⟩

end AlgebraTutor.Tree
