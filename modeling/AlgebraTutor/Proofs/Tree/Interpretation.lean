import Mathlib.Tactic.Ring
import AlgebraTutor.Proofs.Tree.Composed
import AlgebraTutor.Proofs.Tree.Reading
import AlgebraTutor.Proofs.Tree.Rebuilt
import AlgebraTutor.Proofs.Tree.Unknowns

/-!
# Interpretations

Trees stand for elements of a commutative ring: polynomials, or fractions of them. All that the stages of the canonical
form need of such a reading is in `Interpretation`: numbers stand for themselves, and the operators for the operations of the
ring. Whatever keeps the value of each node keeps that of the whole tree when the tree is rebuilt, so distributing
products and tidying coefficients change no value.
-/

namespace AlgebraTutor

/-- A reading of trees as elements of a commutative ring, operator by operator. -/
structure Interpretation (R : Type) [CommRing R] where
  Holds : Tree → R → Prop
  scalar : ℚ →+* R
  const_iff : ∀ {value : ℚ} {f : R}, Holds (.const value) f ↔ f = scalar value
  paren_iff : ∀ {t : Tree} {f : R}, Holds (.paren t) f ↔ Holds t f
  neg_iff : ∀ {t : Tree} {f : R}, Holds (.apply .sub [t]) f ↔ Holds t (-f)
  add_iff : ∀ {t u : Tree} {f : R}, Holds (.apply .add [t, u]) f ↔ ∃ g h, Holds t g ∧ Holds u h ∧ g + h = f
  sub_iff : ∀ {t u : Tree} {f : R}, Holds (.apply .sub [t, u]) f ↔ ∃ g h, Holds t g ∧ Holds u h ∧ g - h = f
  mul_iff : ∀ {t u : Tree} {f : R}, Holds (.apply .mul [t, u]) f ↔ ∃ g h, Holds t g ∧ Holds u h ∧ g * h = f
  div_iff : ∀ {t u : Tree} {f : R},
    Holds (.apply .div [t, u]) f ↔ ∃ g h k, Holds t g ∧ Holds u h ∧ h * k = 1 ∧ g * k = f
  IsPower : R → R → R → Prop
  pow_iff : ∀ {t u : Tree} {f : R},
    Holds (.apply .pow [t, u]) f ↔ u.isConstant = true ∧ ∃ g h, Holds t g ∧ Holds u h ∧ IsPower g h f
  shape : ∀ {op : Op} {args : List Tree} {f : R}, Holds (.apply op args) f →
    (∃ t, op = .sub ∧ args = [t]) ∨ (∃ t u, op.isArithmetic = true ∧ args = [t, u]) ∨
      ∃ name, op = .call name ∧ ∀ a ∈ args, ∃ value, a = .const value

namespace Interpretation

open AlgebraTutor.Tree (parenIf leftNeedsParen rightNeedsParen)

variable {R : Type} [CommRing R] (D : Interpretation R) {t t' u u' : Tree} {f g : R}

/-! ### Parentheses and the operations that set them -/

/-- The reading of the ring operations alone. -/
def reading : Reading R where
  Holds := D.Holds
  scalar := D.scalar
  const_iff := D.const_iff
  paren_iff := D.paren_iff
  neg_iff := D.neg_iff
  add_iff := D.add_iff
  sub_iff := D.sub_iff
  mul_iff := D.mul_iff
  div_iff := D.div_iff

@[simp] theorem holds_paren : D.Holds (.paren t) f ↔ D.Holds t f :=
  D.paren_iff

@[simp] theorem holds_stripParens : D.Holds t.stripParens f ↔ D.Holds t f :=
  D.reading.holds_stripParens

@[simp] theorem holds_parenIf {needed : Bool} : D.Holds (parenIf needed t) f ↔ D.Holds t f :=
  D.reading.holds_parenIf

@[simp] theorem holds_negate : D.Holds t.negate f ↔ D.Holds t (-f) :=
  D.reading.holds_negate

theorem holds_binary_add (ht : D.Holds t f) (hu : D.Holds u g) : D.Holds (.binary .add t u) (f + g) :=
  D.reading.holds_binary_add ht hu

theorem holds_binary_sub (ht : D.Holds t f) (hu : D.Holds u g) : D.Holds (.binary .sub t u) (f - g) :=
  D.reading.holds_binary_sub ht hu

theorem holds_binary_mul (ht : D.Holds t f) (hu : D.Holds u g) : D.Holds (.binary .mul t u) (f * g) :=
  D.reading.holds_binary_mul ht hu

/-- An operator keeps its value when its operands are replaced by trees of the same values. -/
theorem holds_binary_of_apply {op : Op} (hop : op.isArithmetic = true) (h : D.Holds (.apply op [t, u]) f)
    (ht : ∀ g, D.Holds t g → D.Holds t' g) (hu : ∀ g, D.Holds u g → D.Holds u' g)
    (hunknowns : ∀ v ∈ u'.unknowns, v ∈ u.unknowns) : D.Holds (.binary op t' u') f := by
  cases op with
  | call name => simp [Op.isArithmetic] at hop
  | add =>
    obtain ⟨g, k, hg, hk, rfl⟩ := D.add_iff.mp h
    exact D.holds_binary_add (ht g hg) (hu k hk)
  | sub =>
    obtain ⟨g, k, hg, hk, rfl⟩ := D.sub_iff.mp h
    exact D.holds_binary_sub (ht g hg) (hu k hk)
  | mul =>
    obtain ⟨g, k, hg, hk, rfl⟩ := D.mul_iff.mp h
    exact D.holds_binary_mul (ht g hg) (hu k hk)
  | div =>
    obtain ⟨g, k, inverse, hg, hk, hinverse, rfl⟩ := D.div_iff.mp h
    exact D.div_iff.mpr ⟨g, k, inverse, by simpa using ht g hg, by simpa using hu k hk, hinverse, rfl⟩
  | pow =>
    obtain ⟨hconstant, g, k, hg, hk, hpower⟩ := D.pow_iff.mp h
    have hconstant' := Tree.isConstant_of_unknowns_subset hunknowns hconstant
    refine D.pow_iff.mpr ⟨?_, g, k, by simpa using ht g hg, by simpa using hu k hk, hpower⟩
    rwa [Tree.isConstant_parenIf, Tree.isConstant_stripParens]

/-- The parentheses that an operator sets around its operands keep its value. -/
theorem holds_binary {op : Op} (hop : op.isArithmetic = true) (h : D.Holds (.apply op [t, u]) f) :
    D.Holds (.binary op t u) f :=
  D.holds_binary_of_apply hop h (fun _ ht => ht) (fun _ hu => hu) fun _ hv => hv

/-- The same reading of the trees whose unknowns have a property. -/
def restrict (P : String → Prop) : Interpretation R where
  Holds t f := D.Holds t f ∧ ∀ v ∈ t.unknowns, P v
  scalar := D.scalar
  const_iff := by simp [D.const_iff, Tree.unknowns_const]
  paren_iff := by simp [Tree.unknowns_paren]
  neg_iff := by simp [D.neg_iff, Tree.mem_unknowns_apply]
  add_iff := by simp [D.add_iff, Tree.mem_unknowns_apply, or_imp, forall_and]; grind
  sub_iff := by simp [D.sub_iff, Tree.mem_unknowns_apply, or_imp, forall_and]; grind
  mul_iff := by simp [D.mul_iff, Tree.mem_unknowns_apply, or_imp, forall_and]; grind
  div_iff := by simp [D.div_iff, Tree.mem_unknowns_apply, or_imp, forall_and]; grind
  IsPower := D.IsPower
  pow_iff := by simp [D.pow_iff, Tree.mem_unknowns_apply, or_imp, forall_and]; grind
  shape h := D.shape h.1

end Interpretation

/-! ### Rebuilding -/

namespace Tree

theorem mem_unknowns_of_build {op : Op} {args : List Tree} {t : Tree} (h : build op args = .ok t) {v : String}
    (hv : v ∈ t.unknowns) : ∃ a ∈ args, v ∈ a.unknowns := by
  rcases build_eq_ok h with ⟨name, -, rfl⟩ | ⟨u, -, rfl, rfl⟩ | ⟨l, r, -, rfl, rfl⟩
  · rw [call, mem_unknowns_apply] at hv
    simpa [unknowns_stripParens] using hv
  · simpa using mem_unknowns_of_negate hv
  · simpa using mem_unknowns_binary.mp hv

/-- Rebuilding adds no unknown if nothing that is done to a node does. -/
theorem unknowns_rebuild {node : Tree → Tree} (hnode : ∀ t, ∀ v ∈ (node t).unknowns, v ∈ t.unknowns) {t u : Tree}
    (h : t.rebuild node = .ok u) {v : String} (hv : v ∈ u.unknowns) : v ∈ t.unknowns := by
  refine rebuild_induction (P := fun t u => ∀ v ∈ u.unknowns, v ∈ t.unknowns) (fun value => hnode _) (fun name => hnode _)
    (fun t u ih => unknowns_paren t ▸ ih) ?_ h v hv
  intro op args us whole hargs hwhole v hv
  obtain ⟨a, ha, hva⟩ := mem_unknowns_of_build hwhole (hnode whole v hv)
  obtain ⟨t, ht, -, hunknowns⟩ := exists_of_forall₂ hargs.flip ha
  exact mem_unknowns_apply.mpr ⟨t, ht, hunknowns v hva⟩

end Tree

namespace Interpretation

variable {R : Type} [CommRing R] (D : Interpretation R)

/-- What is done to a node keeps its value, adds no unknown, and leaves numbers as they are. -/
structure Keeps (node : Tree → Tree) : Prop where
  holds : ∀ {t : Tree} {f : R}, D.Holds t f → D.Holds (node t) f
  unknowns : ∀ t, ∀ v ∈ (node t).unknowns, v ∈ t.unknowns
  const : ∀ value : ℚ, node (.const value) = .const value

variable {D} {node : Tree → Tree}

/-- Rebuilding a tree keeps its value. -/
theorem Keeps.rebuild (h : D.Keeps node) {t u : Tree} {f : R} (ht : D.Holds t f) (hbuilt : t.rebuild node = .ok u) :
    D.Holds u f := by
  refine Tree.rebuild_induction (P := fun t u => ∀ f, D.Holds t f → D.Holds u f) (fun value f => h.holds) (fun name f => h.holds)
    (fun t u ih f ht => ih f (D.paren_iff.mp ht)) ?_ hbuilt f ht
  intro op args us whole hargs hwhole f ht
  refine h.holds ?_
  rcases D.shape ht with ⟨t, rfl, rfl⟩ | ⟨l, r, hop, rfl⟩ | ⟨name, rfl, hconst⟩
  · obtain ⟨t', us, ⟨-, ih⟩, hnone, rfl⟩ := List.forall₂_cons_left_iff.mp hargs
    obtain rfl := List.forall₂_nil_left_iff.mp hnone
    obtain rfl := Except.ok.inj hwhole
    exact D.holds_negate.mpr (ih _ (D.neg_iff.mp ht))
  · obtain ⟨l', us, ⟨-, ihl⟩, hright, rfl⟩ := List.forall₂_cons_left_iff.mp hargs
    obtain ⟨r', us, ⟨hr, ihr⟩, hnone, rfl⟩ := List.forall₂_cons_left_iff.mp hright
    obtain rfl := List.forall₂_nil_left_iff.mp hnone
    obtain rfl := Except.ok.inj ((Tree.build_binary hop l' r').symm.trans hwhole)
    exact D.holds_binary_of_apply hop ht ihl ihr fun v hv => Tree.unknowns_rebuild h.unknowns hr hv
  · have hself : Tree.rebuildAll node args = .ok args := Tree.rebuildAll_eq_self fun a ha => by
      obtain ⟨value, rfl⟩ := hconst a ha
      exact congrArg _ (h.const value)
    obtain rfl := Except.ok.inj (hself.symm.trans (Tree.rebuildAll_eq_ok_iff.mpr (hargs.imp fun _ _ h => h.1)))
    obtain rfl := Except.ok.inj hwhole
    have hplain : args.map Tree.stripParens = args := by
      refine (List.map_congr_left fun a ha => ?_).trans (List.map_id args)
      obtain ⟨value, rfl⟩ := hconst a ha
      rfl
    rwa [Tree.call, hplain]

/-! ### Products over sums -/

theorem mem_unknowns_of_sumParts? {t a b : Tree} {op : Op} (h : t.sumParts? = some (op, a, b)) {v : String}
    (hv : v ∈ a.unknowns ∨ v ∈ b.unknowns) : v ∈ t.unknowns := by
  unfold Tree.sumParts? at h
  split at h
  case h_3 => simp at h
  all_goals
    cases h
    simpa [Tree.mem_unknowns_apply, Tree.unknowns_stripParens] using hv

theorem mem_unknowns_of_distributeOver {t u : Tree} {v : String} (hv : v ∈ (Tree.distributeOver t u).unknowns) :
    v ∈ t.unknowns ∨ v ∈ u.unknowns := by
  induction t, u using Tree.distributeOver.induct with
  | case1 t u op a b hparts iha ihb =>
    rw [Tree.distributeOver, hparts, Tree.mem_unknowns_binary] at hv
    have hparts := fun h => @mem_unknowns_of_sumParts? _ _ _ _ hparts v h
    rcases hv.imp iha ihb with (h | h) | (h | h)
    · exact .inl h
    · exact .inr (hparts (.inl h))
    · exact .inl h
    · exact .inr (hparts (.inr h))
  | case2 t u hright op a b hparts iha ihb =>
    rw [Tree.distributeOver, hright, hparts, Tree.mem_unknowns_binary] at hv
    have hparts := fun h => @mem_unknowns_of_sumParts? _ _ _ _ hparts v h
    rcases hv.imp iha ihb with (h | h) | (h | h)
    · exact .inl (hparts (.inl h))
    · exact .inr h
    · exact .inl (hparts (.inr h))
    · exact .inr h
  | case3 t u hright hleft =>
    rw [Tree.distributeOver, hright, hleft] at hv
    exact Tree.mem_unknowns_binary.mp hv

/-- Distributing the products of a tree keeps its value. -/
theorem keeps_distributeNode : D.Keeps Tree.distributeNode where
  holds := Reading.holds_distributeNode (D := D.reading)
  unknowns t v hv := by
    unfold Tree.distributeNode at hv
    split at hv
    · have hmem := mem_unknowns_of_distributeOver hv
      simpa [Tree.mem_unknowns_apply, Tree.unknowns_stripParens] using hmem
    · exact hv
  const _ := rfl

/-! ### Coefficients -/

theorem mem_unknowns_of_coefficientProduct {c : ℚ} {other whole : Tree} {v : String}
    (hv : v ∈ (Tree.coefficientProduct c other whole).unknowns) : v ∈ other.unknowns ∨ v ∈ whole.unknowns := by
  unfold Tree.coefficientProduct at hv
  split_ifs at hv
  · simp [Tree.unknowns_const] at hv
  · exact .inl hv
  · exact .inl (Tree.mem_unknowns_of_negate hv)
  · exact .inr hv

/-- Tidying the coefficients of a tree keeps its value. -/
theorem keeps_coefficientNode : D.Keeps Tree.coefficientNode where
  holds := Reading.holds_coefficientNode (D := D.reading)
  unknowns t v hv := by
    unfold Tree.coefficientNode at hv
    split at hv
    · rename_i left right
      have hmem (h : v ∈ left.stripParens.unknowns ∨ v ∈ right.stripParens.unknowns) :
          v ∈ (Tree.apply .mul [left, right]).unknowns := by
        simpa [Tree.mem_unknowns_apply, Tree.unknowns_stripParens] using h
      split at hv
      · exact (mem_unknowns_of_coefficientProduct hv).elim (fun h => hmem (.inr h)) id
      · rcases mem_unknowns_of_coefficientProduct hv with h | h
        · exact hmem (.inl h)
        · exact hmem ((Tree.mem_unknowns_binary.mp h).symm.imp_right fun h => by simp [Tree.unknowns_const] at h)
      · exact hv
    · exact hv
  const _ := rfl

end Interpretation

end AlgebraTutor
