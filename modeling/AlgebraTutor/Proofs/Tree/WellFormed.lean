import AlgebraTutor.Canonical.Distribute
import AlgebraTutor.Pattern.Decimal
import AlgebraTutor.Proofs.Tree.Built

/-!
# Well-formed trees

A tree is well-formed if rebuilding it changes nothing: its parentheses stand exactly where precedence asks for them, and no
sign stands before a number. Whatever is built over well-formed operands is well-formed, so every rebuilding pass whose
step keeps well-formed nodes answers a well-formed tree, whatever tree it is given. Rebuilding fails on a wrong number of
operands and on nothing else.
-/

namespace AlgebraTutor

/-- May the operator stand over so many operands? A call may have any number of arguments. -/
def Op.Takes : Op → Nat → Prop
  | .call _, _ => True
  | .sub, n => n = 1 ∨ n = 2
  | _, n => n = 2

namespace Tree

/-- Rebuilding the tree changes nothing. -/
def WellFormed (t : Tree) : Prop :=
  t.rebuild id = .ok t

instance (t : Tree) : Decidable t.WellFormed :=
  inferInstanceAs (Decidable (t.rebuild id = .ok t))

variable {t u : Tree} {op : Op} {args : List Tree}

/-! ### Operators over the right number of operands -/

theorem exists_build_iff : (∃ t, build op args = .ok t) ↔ op.Takes args.length := by
  constructor
  · rintro ⟨t, h⟩
    rcases build_eq_ok h with ⟨f, rfl, -⟩ | ⟨u, rfl, rfl, -⟩ | ⟨l, r, hop, rfl, -⟩
    · trivial
    · exact .inl rfl
    · cases op with
      | sub => exact .inr rfl
      | call => trivial
      | _ => rfl
  · intro h
    have hbinary (hlength : args.length = 2) : ∃ t, build op args = .ok t := by
      obtain ⟨l, r, rfl⟩ := List.length_eq_two.mp hlength
      cases op <;> exact ⟨_, rfl⟩
    cases op with
    | call f => exact ⟨_, rfl⟩
    | sub =>
      rcases h with hone | htwo
      · obtain ⟨t, rfl⟩ := List.length_eq_one_iff.mp hone
        exact ⟨_, rfl⟩
      · exact hbinary htwo
    | _ => exact hbinary h

theorem build_eq_error_iff {failure : Failure} :
    build op args = .error failure ↔ ¬op.Takes args.length ∧ failure = .operandCount op.sign args.length := by
  constructor
  · intro h
    refine ⟨fun htakes => ?_, ?_⟩
    · obtain ⟨t, ht⟩ := exists_build_iff.mpr htakes
      simp [ht] at h
    · unfold build at h
      split at h <;> simp_all
  · rintro ⟨htakes, rfl⟩
    cases hbuild : build op args with
    | ok t => exact absurd (exists_build_iff.mp ⟨t, hbuild⟩) htakes
    | error failure =>
      unfold build at hbuild
      split at hbuild <;> simp_all

/-! ### What rebuilding answers -/

theorem stripParens_of_build (h : build op args = .ok t) : t.stripParens = t := by
  rcases build_eq_ok h with ⟨f, -, rfl⟩ | ⟨u, -, -, rfl⟩ | ⟨l, r, -, -, rfl⟩
  · rfl
  · exact stripParens_negate u
  · rfl

theorem stripParens_of_rebuild (h : t.rebuild id = .ok u) : u.stripParens = u :=
  rebuild_induction (P := fun _ u => u.stripParens = u) (fun _ => rfl) (fun _ => rfl) (fun _ _ ih => ih)
    (fun _ _ _ _ _ hwhole => stripParens_of_build hwhole) h

theorem WellFormed.stripParens (h : t.WellFormed) : t.stripParens = t :=
  stripParens_of_rebuild h

theorem binary_stripParens_right (op : Op) (t u : Tree) : binary op t u.stripParens = binary op t u := by
  rw [binary, binary, stripParens_stripParens]

theorem rebuild_binary {f : Tree → Tree} (hop : op.isArithmetic = true) (hplain : t.stripParens = t)
    (hplain' : u.stripParens = u) (ht : t.rebuild f = .ok t) (hu : u.rebuild f = .ok u) :
    (binary op t u).rebuild f = .ok (f (binary op t u)) := by
  have hargs : rebuildAll f [parenIf (leftNeedsParen op t) t, parenIf (rightNeedsParen op u) u] = .ok [t, u] := by
    simp [rebuildAll, rebuild_parenIf, ht, hu]
  have hbuilt := build_binary hop t u
  rw [binary, hplain, hplain', rebuild, hargs]
  rw [binary, hplain, hplain'] at hbuilt
  simp [hbuilt]

namespace WellFormed

theorem const (value : Rat) : (Tree.const value).WellFormed :=
  rfl

theorem symbol (name : String) : (Tree.symbol name).WellFormed :=
  rfl

theorem negate (h : t.WellFormed) : t.negate.WellFormed := by
  rcases negate_cases t with ⟨value, -, hvalue⟩ | hsign
  · rw [hvalue]
    exact const (-value)
  · have hbuild : Tree.build .sub [t] = .ok t.negate := rfl
    rw [h.stripParens] at hsign
    rw [hsign] at hbuild ⊢
    rw [WellFormed, rebuild, rebuildAll, rebuildAll, rebuild_parenIf, h]
    simp [hbuild]

theorem binary (hop : op.isArithmetic = true) (h : t.WellFormed) (h' : u.WellFormed) : (Tree.binary op t u).WellFormed :=
  rebuild_binary hop h.stripParens h'.stripParens h h'

theorem call (f : String) (h : ∀ a ∈ args, a.WellFormed) : (Tree.call f args).WellFormed := by
  have hplain : args.map Tree.stripParens = args := by
    rw [List.map_congr_left fun a ha => (h a ha).stripParens, List.map_id']
  have hargs : rebuildAll id args = .ok args := rebuildAll_eq_self h
  have hbuild : Tree.build (.call f) args = .ok (Tree.call f args) := rfl
  rw [Tree.call, hplain] at hbuild ⊢
  rw [WellFormed, rebuild, hargs]
  simp [hbuild]

/-- An operator over well-formed operands is well-formed. -/
theorem build (h : ∀ a ∈ args, a.WellFormed) (hbuild : Tree.build op args = .ok t) : t.WellFormed := by
  rcases build_eq_ok hbuild with ⟨f, rfl, rfl⟩ | ⟨u, rfl, rfl, rfl⟩ | ⟨l, r, hop, rfl, rfl⟩
  · exact call f h
  · exact (h u (by simp)).negate
  · exact binary hop (h l (by simp)) (h r (by simp))

end WellFormed

theorem Built.wellFormed (h : t.Built) : t.WellFormed := by
  induction h with
  | integer n => exact .const n
  | letter | pi => exact .symbol _
  | build _ _ ht ih => exact .build ih ht

/-! ### What rebuilding brings about -/

/-- The pass makes something with the property of every leaf, and of every operator over operands with the property. -/
structure BringsAbout (P : Tree → Prop) (f : Tree → Tree) : Prop where
  const : ∀ value, P (f (.const value))
  symbol : ∀ name, P (f (.symbol name))
  build : ∀ op args t, (∀ a ∈ args, P a) → build op args = .ok t → P (f t)

/-- What is rebuilt by such a pass has the property. -/
theorem BringsAbout.rebuild {P : Tree → Prop} {f : Tree → Tree} (hf : BringsAbout P f) {t u : Tree}
    (h : t.rebuild f = .ok u) : P u := by
  refine rebuild_induction (P := fun _ u => P u) hf.const hf.symbol (fun _ _ ih => ih) ?_ h
  intro op args us whole hargs hwhole
  refine hf.build op us whole (fun u hu => ?_) hwhole
  obtain ⟨_, -, -, hP⟩ := exists_of_forall₂ hargs.flip hu
  exact hP

theorem BringsAbout.rebuildAll {P : Tree → Prop} {f : Tree → Tree} (hf : BringsAbout P f) {ts us : List Tree}
    (h : rebuildAll f ts = .ok us) : ∀ u ∈ us, P u := by
  intro u hu
  obtain ⟨_, -, hrebuild⟩ := exists_of_forall₂ (rebuildAll_eq_ok_iff.mp h).flip hu
  exact hf.rebuild hrebuild

theorem bringsAbout_wellFormed {node : Tree → Tree} (hnode : ∀ t, t.WellFormed → (node t).WellFormed) :
    BringsAbout WellFormed node where
  const value := hnode _ (.const value)
  symbol name := hnode _ (.symbol name)
  build _ _ t hargs ht := hnode t (.build hargs ht)

/-- A pass that keeps nodes well-formed answers a well-formed tree. -/
theorem wellFormed_of_rebuild {node : Tree → Tree} (hnode : ∀ t, t.WellFormed → (node t).WellFormed) {t u : Tree}
    (h : t.rebuild node = .ok u) : u.WellFormed :=
  (bringsAbout_wellFormed hnode).rebuild h

/-- The operands of a well-formed tree are well-formed within their parentheses. -/
theorem WellFormed.operands (h : (Tree.apply op args).WellFormed) : ∀ a ∈ args, a.stripParens.WellFormed := by
  obtain ⟨args', hargs', whole, hwhole, rfl : whole = .apply op args⟩ := rebuild_apply_eq_ok_iff.mp h
  have hoperands := (bringsAbout_wellFormed fun _ => id).rebuildAll hargs'
  have hparen {needed : Bool} {u : Tree} (hu : u ∈ args') : (parenIf needed u.stripParens).stripParens.WellFormed := by
    rw [stripParens_parenIf (stripParens_stripParens u), (hoperands u hu).stripParens]
    exact hoperands u hu
  rcases build_eq_ok hwhole with ⟨f, rfl, hcall⟩ | ⟨u, rfl, rfl, hsign⟩ | ⟨l, r, hop, rfl, hbinary⟩
  · obtain ⟨-, rfl⟩ := Tree.apply.inj hcall
    exact List.forall_mem_map.mpr fun a ha => @hparen false a ha
  · rcases negate_cases u with ⟨value, -, hvalue⟩ | hnegate
    · simp [hvalue] at hsign
    · obtain ⟨-, rfl⟩ := Tree.apply.inj (hsign.trans hnegate)
      simpa using hparen (List.mem_singleton_self u)
  · obtain ⟨-, rfl⟩ := Tree.apply.inj hbinary
    simpa using ⟨hparen (by simp), hparen (by simp)⟩

/-! ### When rebuilding fails -/

mutual

/-- Rebuilding fails with the first operator that has a wrong number of operands. -/
theorem exists_node_of_rebuild_eq_error {f : Tree → Tree} {failure : Failure} {t : Tree} (h : t.rebuild f = .error failure) :
    ∃ op args, .apply op args ∈ t.nodes ∧ ¬op.Takes args.length ∧ failure = .operandCount op.sign args.length := by
  match t with
  | .const _ | .symbol _ => simp [rebuild] at h
  | .paren content =>
    obtain ⟨op, args, hmem, hbad⟩ := @exists_node_of_rebuild_eq_error f failure content h
    exact ⟨op, args, List.mem_cons_of_mem _ hmem, hbad⟩
  | .apply op args =>
    rcases Answer.bind_eq_error_iff.mp h with hargs | ⟨args', hargs, h⟩
    · obtain ⟨op', args', hmem, hbad⟩ := exists_node_of_rebuildAll_eq_error hargs
      exact ⟨op', args', List.mem_cons_of_mem _ hmem, hbad⟩
    · rcases Answer.bind_eq_error_iff.mp h with hbuild | ⟨_, -, h⟩
      · rw [build_eq_error_iff, length_of_rebuildAll hargs] at hbuild
        exact ⟨op, args, List.mem_cons_self, hbuild⟩
      · simp [pure, Except.pure] at h

theorem exists_node_of_rebuildAll_eq_error {f : Tree → Tree} {failure : Failure} {ts : List Tree}
    (h : rebuildAll f ts = .error failure) :
    ∃ op args, .apply op args ∈ nodesAll ts ∧ ¬op.Takes args.length ∧ failure = .operandCount op.sign args.length := by
  match ts with
  | [] => simp [rebuildAll] at h
  | t :: ts =>
    rcases Answer.bind_eq_error_iff.mp h with ht | ⟨u, -, h⟩
    · obtain ⟨op, args, hmem, hbad⟩ := exists_node_of_rebuild_eq_error ht
      exact ⟨op, args, List.mem_append_left _ hmem, hbad⟩
    · rcases Answer.bind_eq_error_iff.mp h with hts | ⟨_, -, h⟩
      · obtain ⟨op, args, hmem, hbad⟩ := exists_node_of_rebuildAll_eq_error hts
        exact ⟨op, args, List.mem_append_right _ hmem, hbad⟩
      · simp [pure, Except.pure] at h

end

theorem takes_of_rebuild_eq_ok {f : Tree → Tree} {t u : Tree} (h : t.rebuild f = .ok u) {op : Op} {args : List Tree}
    (hmem : .apply op args ∈ t.nodes) : op.Takes args.length := by
  refine rebuild_induction (P := fun t _ => .apply op args ∈ t.nodes → op.Takes args.length) (fun _ hmem => ?_) (fun _ hmem => ?_)
    (fun t _ ih hmem => ih (by simpa [nodes] using hmem)) ?_ h hmem
  · simp [nodes] at hmem
  · simp [nodes] at hmem
  · intro op' args' us whole hargs hwhole hmem
    rcases List.mem_cons.mp hmem with hroot | hbelow
    · obtain ⟨rfl, rfl⟩ := Tree.apply.inj hroot
      exact hargs.length_eq ▸ exists_build_iff.mp ⟨whole, hwhole⟩
    · obtain ⟨a, ha, hmem⟩ := mem_nodesAll.mp hbelow
      obtain ⟨_, -, -, htakes⟩ := exists_of_forall₂ hargs ha
      exact htakes hmem

/-- Rebuilding fails exactly on the trees with an operator over a wrong number of operands. -/
theorem exists_rebuild_eq_error_iff {f : Tree → Tree} :
    (∃ failure, t.rebuild f = .error failure) ↔ ∃ op args, .apply op args ∈ t.nodes ∧ ¬op.Takes args.length := by
  constructor
  · rintro ⟨failure, h⟩
    obtain ⟨op, args, hmem, hbad, -⟩ := exists_node_of_rebuild_eq_error h
    exact ⟨op, args, hmem, hbad⟩
  · rintro ⟨op, args, hmem, hbad⟩
    cases h : t.rebuild f with
    | ok u => exact absurd (takes_of_rebuild_eq_ok h hmem) hbad
    | error failure => exact ⟨failure, rfl⟩

/-! ### Passes that keep trees well-formed -/

theorem WellFormed.sumParts {a b : Tree} (h : t.WellFormed) (hparts : t.sumParts? = some (op, a, b)) :
    op.isArithmetic = true ∧ a.WellFormed ∧ b.WellFormed := by
  unfold sumParts? at hparts
  split at hparts
  case h_1 | h_2 =>
    cases hparts
    exact ⟨rfl, h.operands _ (by simp), h.operands _ (by simp)⟩
  case h_3 => simp at hparts

theorem WellFormed.distributeOver (h : t.WellFormed) (h' : u.WellFormed) : (Tree.distributeOver t u).WellFormed := by
  induction t, u using Tree.distributeOver.induct with
  | case1 t u op a b hright iha ihb =>
    obtain ⟨hop, ha, hb⟩ := h'.sumParts hright
    rw [Tree.distributeOver, hright]
    exact .binary hop (iha h ha) (ihb h hb)
  | case2 t u hright op a b hleft iha ihb =>
    obtain ⟨hop, ha, hb⟩ := h.sumParts hleft
    rw [Tree.distributeOver, hright, hleft]
    exact .binary hop (iha ha h') (ihb hb h')
  | case3 t u hright hleft =>
    rw [Tree.distributeOver, hright, hleft]
    exact .binary rfl h h'

theorem WellFormed.distributeNode (h : t.WellFormed) : t.distributeNode.WellFormed := by
  unfold Tree.distributeNode
  split
  · exact .distributeOver (h.operands _ (by simp)) (h.operands _ (by simp))
  · exact h

theorem WellFormed.coefficientProduct {c : Rat} (h : t.WellFormed) (h' : u.WellFormed) :
    (Tree.coefficientProduct c t u).WellFormed := by
  unfold Tree.coefficientProduct
  split_ifs
  · exact .const 0
  · exact h
  · exact h.negate
  · exact h'

theorem WellFormed.coefficientNode (h : t.WellFormed) : t.coefficientNode.WellFormed := by
  unfold Tree.coefficientNode
  split
  · rename_i left right
    have hleft := h.operands left (by simp)
    have hright := h.operands right (by simp)
    split
    · exact .coefficientProduct hright h
    · exact .coefficientProduct hleft (.binary rfl (.const _) hleft)
    · exact h
  · exact h

theorem WellFormed.leadingNumber (h : t.WellFormed) : t.leadingNumber.2.stripParens.WellFormed := by
  unfold Tree.leadingNumber
  split
  · split
    · exact h.operands _ (by simp)
    · exact h.stripParens.symm ▸ h
  · exact h.stripParens.symm ▸ h

theorem WellFormed.decimalProduct {d : Rat} (h : t.WellFormed) : (t.decimalProduct d).WellFormed := by
  have hproduct {c : Rat} {t : Tree} (h : t.WellFormed) : (Tree.binary .mul (.const c) t.leadingNumber.2).WellFormed := by
    rw [← binary_stripParens_right]
    exact .binary rfl (.const c) h.leadingNumber
  unfold Tree.decimalProduct
  split
  · exact .const _
  · exact hproduct (h.operands _ (by simp))
  · exact hproduct h

theorem WellFormed.decimalNode (h : t.WellFormed) : t.decimalNode.WellFormed := by
  unfold Tree.decimalNode
  split
  · split
    · split
      · exact .decimalProduct (h.operands _ (by simp))
      · exact h
    · exact h
  · exact h

end Tree

end AlgebraTutor
