import AlgebraTutor.Proofs.Tree.Functions
import AlgebraTutor.Proofs.Tree.WellFormed

/-!
# The products of a tree

What holds of the two factors of every product of a tree, and how it gets there: a pass that rebuilds a tree and changes
products only brings a relation about, if it answers trees with it for every product whose factors have it inside. A
well-formed tree on whose products the pass has nothing to do comes out of it as it is.
-/

namespace AlgebraTutor.Tree

/-- The factors of every product of the tree, within their parentheses, stand in the relation. -/
def Products (P : Tree → Tree → Prop) (t : Tree) : Prop :=
  ∀ l r, .apply .mul [l, r] ∈ t.nodes → P l.stripParens r.stripParens

variable {P : Tree → Tree → Prop} {t u : Tree} {op : Op} {args : List Tree}

theorem products_const (value : Rat) : (const value).Products P := by
  simp [Products, nodes]

theorem products_symbol (name : String) : (symbol name).Products P := by
  simp [Products, nodes]

theorem products_paren : (paren t).Products P ↔ t.Products P := by
  simp [Products, nodes]

theorem products_stripParens : t.stripParens.Products P ↔ t.Products P := by
  induction t using stripParens.induct with
  | case1 content ih => rw [stripParens, ih, products_paren]
  | case2 t h => rw [stripParens]; simpa using h

theorem products_parenIf {needed : Bool} : (parenIf needed t).Products P ↔ t.Products P := by
  cases needed
  · rfl
  · exact products_paren

theorem products_apply : (apply op args).Products P ↔
    (∀ l r, op = .mul → args = [l, r] → P l.stripParens r.stripParens) ∧ ∀ a ∈ args, a.Products P := by
  simp only [Products, nodes, List.mem_cons, mem_nodesAll, apply.injEq]
  constructor
  · intro h
    exact ⟨fun l r hop hargs => h l r (.inl ⟨hop.symm, hargs.symm⟩), fun a ha l r hmem => h l r (.inr ⟨a, ha, hmem⟩)⟩
  · rintro ⟨hroot, hargs⟩ l r (⟨hop, heq⟩ | ⟨a, ha, hmem⟩)
    · exact hroot l r hop.symm heq.symm
    · exact hargs a ha l r hmem

theorem products_negate : t.negate.Products P ↔ t.Products P := by
  rw [← products_stripParens (t := t)]
  rcases negate_cases t with ⟨value, hvalue, hnegate⟩ | hnegate
  · rw [hnegate, hvalue]
    exact iff_of_true (products_const _) (products_const _)
  · simp [hnegate, products_apply, products_parenIf]

theorem products_binary (hop : op ≠ .mul) : (binary op t u).Products P ↔ t.Products P ∧ u.Products P := by
  simp [binary, products_apply, products_parenIf, products_stripParens, hop]

theorem products_product :
    (binary .mul t u).Products P ↔ P t.stripParens u.stripParens ∧ t.Products P ∧ u.Products P := by
  have hplain {needed : Bool} (v : Tree) : (parenIf needed v.stripParens).stripParens = v.stripParens :=
    stripParens_parenIf (stripParens_stripParens v)
  simp [binary, products_apply, products_parenIf, products_stripParens, hplain]

theorem products_call {f : String} : (call f args).Products P ↔ ∀ a ∈ args, a.Products P := by
  simp [call, products_apply, products_stripParens]

/-! ### Operands built again -/

/-- A well-formed operator is what is built over its operands. -/
theorem WellFormed.build_operands (h : (apply op args).WellFormed) :
    Tree.build op (args.map Tree.stripParens) = .ok (apply op args) := by
  have hall : rebuildAll id args = .ok (args.map Tree.stripParens) := by
    rw [rebuildAll_eq_ok_iff, List.forall₂_map_right_iff, List.forall₂_same]
    exact fun a ha => (rebuild_stripParens a).symm.trans (h.operands a ha)
  obtain ⟨us, hus, whole, hwhole, rfl : whole = apply op args⟩ := rebuild_apply_eq_ok_iff.mp h
  obtain rfl := Except.ok.inj (hall.symm.trans hus)
  exact hwhole

theorem WellFormed.binary_operands {l r : Tree} (hop : op.isArithmetic = true) (h : (apply op [l, r]).WellFormed) :
    Tree.binary op l.stripParens r.stripParens = apply op [l, r] :=
  Except.ok.inj ((build_binary hop _ _).symm.trans h.build_operands)

/-- Whether rebuilding answers does not hang on the pass. -/
theorem exists_rebuild {f g : Tree → Tree} (h : t.rebuild g = .ok u) : ∃ v, t.rebuild f = .ok v := by
  cases hrebuild : t.rebuild f with
  | ok v => exact ⟨v, rfl⟩
  | error failure =>
    obtain ⟨_, hother⟩ := exists_rebuild_eq_error_iff.mpr (exists_rebuild_eq_error_iff.mp ⟨failure, hrebuild⟩)
    rw [h] at hother
    cases hother

/-! ### Passes that change products only -/

/-- The pass leaves every node alone that is no product of two factors. -/
def ChangesProducts (f : Tree → Tree) : Prop :=
  ∀ t, (∀ l r, t ≠ .apply .mul [l, r]) → f t = t

variable {f : Tree → Tree}

theorem ChangesProducts.negate (hf : ChangesProducts f) (t : Tree) : f t.negate = t.negate := by
  refine hf _ fun l r => ?_
  rcases negate_cases t with ⟨value, -, hnegate⟩ | hnegate <;> simp [hnegate]

/-- The pass changes products only, and it answers trees with the relation for products of such trees. -/
structure MakesProducts (P : Tree → Tree → Prop) (f : Tree → Tree) : Prop where
  changes : ChangesProducts f
  product : ∀ l r, l.Products P → r.Products P → l.stripParens = l → r.stripParens = r → (f (binary .mul l r)).Products P
  wellFormed : ∀ t, t.WellFormed → (f t).WellFormed

theorem MakesProducts.bringsAbout (hf : MakesProducts P f) : BringsAbout (fun t => t.Products P ∧ t.WellFormed) f where
  const value := by
    rw [hf.changes _ (by simp)]
    exact ⟨products_const value, .const value⟩
  symbol name := by
    rw [hf.changes _ (by simp)]
    exact ⟨products_symbol name, .symbol name⟩
  build op us t hus ht := by
    refine ⟨?_, hf.wellFormed t (.build (fun a ha => (hus a ha).2) ht)⟩
    have hproducts {a : Tree} (ha : a ∈ us) : a.Products P := (hus a ha).1
    have hplain {a : Tree} (ha : a ∈ us) : a.stripParens = a := (hus a ha).2.stripParens
    rcases build_eq_ok ht with ⟨name, -, rfl⟩ | ⟨v, -, rfl, rfl⟩ | ⟨l, r, -, rfl, rfl⟩
    · rw [hf.changes _ (by simp [call]), products_call]
      exact fun a ha => hproducts ha
    · rw [hf.changes.negate, products_negate]
      exact hproducts (by simp)
    · by_cases hmul : op = .mul
      · subst hmul
        exact hf.product l r (hproducts (by simp)) (hproducts (by simp)) (hplain (by simp)) (hplain (by simp))
      · rw [hf.changes _ (by simp [binary, hmul]), products_binary hmul]
        exact ⟨hproducts (by simp), hproducts (by simp)⟩

/-- The pass changes products only, and none whose factors have the relation. -/
structure KeepsProducts (P : Tree → Tree → Prop) (f : Tree → Tree) : Prop where
  changes : ChangesProducts f
  product : ∀ l r, (apply .mul [l, r]).WellFormed → P l.stripParens r.stripParens → f (.apply .mul [l, r]) = .apply .mul [l, r]

mutual

/-- A pass that has nothing to do on the products of a well-formed tree answers it as it is, within its parentheses. -/
theorem rebuild_eq_stripParens (hf : KeepsProducts P f) {t : Tree} (ht : t.stripParens.WellFormed) (hproducts : t.Products P) :
    t.rebuild f = .ok t.stripParens := by
  match t with
  | .const value => rw [rebuild, hf.changes _ (by simp), stripParens.eq_2 _ (by simp)]
  | .symbol name => rw [rebuild, hf.changes _ (by simp), stripParens.eq_2 _ (by simp)]
  | .paren content => exact rebuild_eq_stripParens (t := content) hf ht (products_paren.mp hproducts)
  | .apply op args =>
    rw [stripParens.eq_2 _ (by simp)] at ht ⊢
    obtain ⟨hroot, hargs⟩ := products_apply.mp hproducts
    have hwhole : f (.apply op args) = .apply op args := by
      by_cases hmul : ∃ l r, Tree.apply op args = .apply .mul [l, r]
      · obtain ⟨l, r, heq⟩ := hmul
        obtain ⟨rfl, rfl⟩ := Tree.apply.inj heq
        exact hf.product l r ht (hroot l r rfl rfl)
      · exact hf.changes _ fun l r heq => hmul ⟨l, r, heq⟩
    rw [rebuild, rebuildAll_eq_map hf ht.operands hargs, Answer.ok_bind, ht.build_operands, Answer.ok_bind, hwhole]
    rfl

theorem rebuildAll_eq_map (hf : KeepsProducts P f) {ts : List Tree} (hts : ∀ t ∈ ts, t.stripParens.WellFormed)
    (hproducts : ∀ t ∈ ts, t.Products P) : rebuildAll f ts = .ok (ts.map stripParens) := by
  match ts with
  | [] => rfl
  | t :: ts =>
    rw [List.forall_mem_cons] at hts hproducts
    rw [rebuildAll, rebuild_eq_stripParens hf hts.1 hproducts.1, rebuildAll_eq_map hf hts.2 hproducts.2]
    rfl

end

/-- A pass that keeps the products that it makes answers wherever some pass does, and changes nothing in what it has answered. -/
theorem exists_rebuild_fixed (hmakes : MakesProducts P f) (hkeeps : KeepsProducts P f) {g : Tree → Tree} (h : t.rebuild g = .ok u) :
    ∃ v, t.rebuild f = .ok v ∧ v.Products P ∧ v.rebuild f = .ok v := by
  obtain ⟨v, hv⟩ := @exists_rebuild t u f g h
  obtain ⟨hproducts, hwell⟩ := hmakes.bringsAbout.rebuild hv
  have hagain : v.rebuild f = .ok v.stripParens := rebuild_eq_stripParens hkeeps (by rwa [hwell.stripParens]) hproducts
  exact ⟨v, hv, hproducts, by rwa [hwell.stripParens] at hagain⟩

end AlgebraTutor.Tree
