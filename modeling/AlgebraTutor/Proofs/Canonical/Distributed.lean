import AlgebraTutor.Pattern.Basic
import AlgebraTutor.Proofs.Tree.Products

/-!
# Distributed trees

Distributing the products of a tree leaves no product with a sum as a factor, neither one that was there nor one that was made
on the way: every product that a sum is split into is distributed itself before the sum is put together. So there is nothing
left to distribute, for the detector of such products as for the pass itself.
-/

namespace AlgebraTutor.Tree

/-- Neither of two factors is a sum. -/
def FreeOfSums (l r : Tree) : Prop :=
  l.isSum = false ∧ r.isSum = false

variable {t u : Tree} {op : Op} {a b : Tree}

theorem isSum_stripParens (t : Tree) : t.stripParens.isSum = t.isSum := by
  rw [isSum, stripParens_stripParens, isSum]

theorem isSum_of_sumParts?_eq_none (hplain : t.stripParens = t) (h : t.sumParts? = none) : t.isSum = false := by
  rw [isSum, hplain]
  unfold sumParts? at h
  split at h <;> simp_all

theorem sumParts?_eq_none_of_isSum (hplain : t.stripParens = t) (h : t.isSum = false) : t.sumParts? = none := by
  rw [isSum, hplain] at h
  unfold sumParts?
  split <;> simp_all

/-- The operands of a sum, its operator and their products. -/
theorem Products.sumParts {P : Tree → Tree → Prop} (h : t.Products P) (hparts : t.sumParts? = some (op, a, b)) :
    op ≠ .mul ∧ (a.Products P ∧ a.stripParens = a) ∧ b.Products P ∧ b.stripParens = b := by
  unfold sumParts? at hparts
  split at hparts
  case h_1 left right | h_2 left right =>
    obtain ⟨rfl, rfl, rfl⟩ : _ = op ∧ left.stripParens = a ∧ right.stripParens = b := by simpa using hparts
    have hargs := (products_apply.mp h).2
    exact ⟨by simp, ⟨products_stripParens.mpr (hargs left (by simp)), stripParens_stripParens left⟩,
      products_stripParens.mpr (hargs right (by simp)), stripParens_stripParens right⟩
  case h_3 => simp at hparts

/-- One step leaves no product of a sum among the products that it makes. -/
theorem products_distributeOver (ht : t.Products FreeOfSums) (hu : u.Products FreeOfSums) (hplain : t.stripParens = t)
    (hplain' : u.stripParens = u) : (distributeOver t u).Products FreeOfSums := by
  induction t, u using distributeOver.induct with
  | case1 t u op a b hright iha ihb =>
    obtain ⟨hop, ⟨ha, hplainA⟩, hb, hplainB⟩ := hu.sumParts hright
    rw [distributeOver, hright]
    exact (products_binary hop).mpr ⟨iha ht ha hplain hplainA, ihb ht hb hplain hplainB⟩
  | case2 t u hright op a b hleft iha ihb =>
    obtain ⟨hop, ⟨ha, hplainA⟩, hb, hplainB⟩ := ht.sumParts hleft
    rw [distributeOver, hright, hleft]
    exact (products_binary hop).mpr ⟨iha ha hu hplainA hplain', ihb hb hu hplainB hplain'⟩
  | case3 t u hright hleft =>
    rw [distributeOver, hright, hleft]
    refine products_product.mpr ⟨?_, ht, hu⟩
    rw [hplain, hplain']
    exact ⟨isSum_of_sumParts?_eq_none hplain hleft, isSum_of_sumParts?_eq_none hplain' hright⟩

theorem changesProducts_distributeNode : ChangesProducts distributeNode := by
  intro t ht
  unfold distributeNode
  split
  · exact absurd rfl (ht _ _)
  · rfl

theorem distributeNode_product (l r : Tree) :
    (binary .mul l r).distributeNode = distributeOver l.stripParens r.stripParens := by
  simp only [binary, distributeNode]
  rw [stripParens_parenIf (stripParens_stripParens l), stripParens_parenIf (stripParens_stripParens r)]

/-- There is nothing to distribute in a product that is free of sums. -/
theorem distributeNode_eq_self {l r : Tree} (h : (apply .mul [l, r]).WellFormed)
    (hfree : FreeOfSums l.stripParens r.stripParens) : (apply .mul [l, r]).distributeNode = apply .mul [l, r] := by
  have hleft := sumParts?_eq_none_of_isSum (stripParens_stripParens l) hfree.1
  have hright := sumParts?_eq_none_of_isSum (stripParens_stripParens r) hfree.2
  rw [distributeNode, distributeOver, hright, hleft]
  exact h.binary_operands rfl

theorem makesProducts_distributeNode : MakesProducts FreeOfSums distributeNode where
  changes := changesProducts_distributeNode
  product := fun l r hl hr hplain hplain' => by
    rw [distributeNode_product, hplain, hplain']
    exact products_distributeOver hl hr hplain hplain'
  wellFormed := fun _ => WellFormed.distributeNode

theorem keepsProducts_distributeNode : KeepsProducts FreeOfSums distributeNode where
  changes := changesProducts_distributeNode
  product := fun _ _ => distributeNode_eq_self

/-- The detector of products over sums finds nothing where there is none. -/
theorem openProducts_eq_nil (h : t.Products FreeOfSums) : t.openProducts = .ok [] := by
  have hnone : ∀ n ∈ t.nodes, distributiveAt n = .ok [] := by
    intro n hn
    unfold distributiveAt
    split
    · rename_i left right
      obtain ⟨hleft, hright⟩ := h left right hn
      rw [isSum_stripParens] at hleft hright
      simp [hleft, hright]
    · rfl
  rw [openProducts]
  generalize t.nodes = ns at hnone
  induction ns with
  | nil => rfl
  | cons n ns ih =>
    rw [List.forall_mem_cons] at hnone
    rw [collectAt, hnone.1, ih hnone.2]
    rfl

/-- Distributing answers wherever rebuilding does with some pass, and finishes: no product of the answer has a sum as a factor,
the detector of such products finds none, and distributing again changes nothing. -/
theorem distribute_finishes {f : Tree → Tree} (h : t.rebuild f = .ok u) :
    ∃ v, t.distribute = .ok v ∧
      (∀ left right, apply .mul [left, right] ∈ v.nodes → left.isSum = false ∧ right.isSum = false) ∧
      v.openProducts = .ok [] ∧ v.distribute = .ok v := by
  obtain ⟨v, hv, hfree, hagain⟩ := exists_rebuild_fixed makesProducts_distributeNode keepsProducts_distributeNode h
  refine ⟨v, hv, fun left right hmem => ?_, openProducts_eq_nil hfree, hagain⟩
  have hfactors := hfree left right hmem
  rwa [FreeOfSums, isSum_stripParens, isSum_stripParens] at hfactors

/-- The factors of `(x + 1)*(x - (y - 2))` are sums on either side, and the second one has a sum below it. -/
theorem distribute_finishes_binomials :
    let x := symbol "x"
    let y := symbol "y"
    let t := binary .mul (binary .add x (.const 1)) (binary .sub x (binary .sub y (.const 2)))
    let first := binary .add (binary .mul x x) (binary .mul (.const 1) x)
    let second := binary .add (binary .mul x y) (binary .mul (.const 1) y)
    let third := binary .add (binary .mul x (.const 2)) (binary .mul (.const 1) (.const 2))
    let v := binary .sub first (binary .sub second third)
    t.rebuild id = .ok t ∧ t.distribute = .ok v ∧
      (∀ left right, apply .mul [left, right] ∈ v.nodes → left.isSum = false ∧ right.isSum = false) ∧
      v.openProducts = .ok [] ∧ v.distribute = .ok v := by
  intro x y t first second third v
  have hrebuild : t.rebuild id = .ok t := by decide +kernel
  have hv : t.distribute = .ok v := by decide +kernel
  obtain ⟨v', hv', hproducts, hquiet, hagain⟩ := @distribute_finishes _ _ id hrebuild
  obtain rfl := Except.ok.inj (hv.symm.trans hv')
  exact ⟨hrebuild, hv, hproducts, hquiet, hagain⟩

end AlgebraTutor.Tree
