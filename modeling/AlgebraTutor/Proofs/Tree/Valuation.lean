import Mathlib.Data.Rat.Cast.CharZero
import Mathlib.Tactic.FieldSimp
import AlgebraTutor.Proofs.Tree.Reading
import AlgebraTutor.Proofs.Tree.WellFormed

/-!
# Values of trees

The value of a tree in a field, for any values of the symbols and any meaning of powers and of calls, which may be
undefined; a quotient by zero has no value. Setting parentheses changes no value, so rebuilding a tree changes none, and
neither does a rebuilding pass that keeps the value of every node.
-/

namespace AlgebraTutor

/-- The values of symbols, and the meanings of powers and of the functions. -/
structure Valuation (K : Type) where
  symbol : String → K
  power : K → K → Option K
  function : String → List K → Option K

namespace Valuation

variable {K : Type} [Field K] [DecidableEq K] (v : Valuation K)

/-- The value of an operator over the values of its operands. -/
def operate : Op → List K → Option K
  | .call f, xs => v.function f xs
  | .sub, [x] => some (-x)
  | .add, [x, y] => some (x + y)
  | .sub, [x, y] => some (x - y)
  | .mul, [x, y] => some (x * y)
  | .div, [x, y] => if y = 0 then none else some (x / y)
  | .pow, [x, y] => v.power x y
  | _, _ => none

mutual

/-- The value of a tree, if it has one. -/
def value : Tree → Option K
  | .const value => some value
  | .symbol name => some (v.symbol name)
  | .apply op args => (values args).bind (v.operate op)
  | .paren content => value content

/-- The values of several trees, if each of them has one. -/
def values : List Tree → Option (List K)
  | [] => some []
  | t :: ts => (value t).bind fun x => (values ts).map (x :: ·)

end

variable {v} {t u : Tree} {op : Op} {args : List Tree} {x : K}

/-! ### The parentheses of a tree -/

@[simp] theorem value_paren : v.value (.paren t) = v.value t := rfl

@[simp] theorem value_stripParens : v.value t.stripParens = v.value t := by
  induction t using Tree.stripParens.induct with
  | case1 content ih => rw [Tree.stripParens, ih, value_paren]
  | case2 t h => rw [Tree.stripParens]; simpa using h

@[simp] theorem value_parenIf {needed : Bool} : v.value (Tree.parenIf needed t) = v.value t := by
  cases needed
  · rfl
  · exact value_paren

theorem value_apply : v.value (.apply op args) = (v.values args).bind (v.operate op) := rfl

theorem values_cons (t : Tree) (ts : List Tree) : v.values (t :: ts) = (v.value t).bind fun x => (v.values ts).map (x :: ·) := rfl

theorem values_singleton (t : Tree) : v.values [t] = (v.value t).map fun x => [x] := by
  rw [values_cons]
  cases v.value t <;> rfl

theorem value_apply_one : v.value (.apply op [t]) = (v.value t).bind fun x => v.operate op [x] := by
  rw [value_apply, values_singleton]
  cases v.value t <;> rfl

theorem value_apply_two :
    v.value (.apply op [t, u]) = (v.value t).bind fun x => (v.value u).bind fun y => v.operate op [x, y] := by
  rw [value_apply, values_cons, values_singleton]
  cases v.value t <;> cases v.value u <;> rfl

theorem value_negate : v.value t.negate = (v.value t).map fun x => -x := by
  rcases Tree.negate_cases t with ⟨value, hvalue, hnegate⟩ | hnegate
  · rw [hnegate, ← value_stripParens (t := t), hvalue]
    exact congrArg some (Rat.cast_neg value)
  · rw [hnegate, value_apply_one, value_parenIf, value_stripParens]
    cases v.value t <;> rfl

theorem values_map_stripParens (ts : List Tree) : v.values (ts.map Tree.stripParens) = v.values ts := by
  induction ts with
  | nil => rfl
  | cons t ts ih => rw [List.map_cons, values_cons, values_cons, value_stripParens, ih]

/-- An operator has the value of its operands' values, wherever its parentheses are. -/
theorem value_of_build (h : Tree.build op args = .ok t) : v.value t = (v.values args).bind (v.operate op) := by
  rcases Tree.build_eq_ok h with ⟨f, rfl, rfl⟩ | ⟨u, rfl, rfl, rfl⟩ | ⟨l, r, -, rfl, rfl⟩
  · rw [Tree.call, value_apply, values_map_stripParens]
  · rw [value_negate, ← value_apply, value_apply_one]
    cases v.value u <;> rfl
  · rw [Tree.binary, value_apply_two, ← value_apply, value_apply_two]
    simp only [value_parenIf, value_stripParens]

/-! ### Rebuilding -/

theorem values_of_forall₂ {ts us : List Tree} (h : List.Forall₂ (fun t u => v.value u = v.value t) ts us) :
    v.values us = v.values ts := by
  induction h with
  | nil => rfl
  | cons ht _ ih => rw [values_cons, values_cons, ht, ih]

theorem value_of_rebuild_id (v : Valuation K) {t u : Tree} (h : t.rebuild id = .ok u) : v.value u = v.value t := by
  refine Tree.rebuild_induction (P := fun t u => v.value u = v.value t) (fun _ => rfl) (fun _ => rfl) (fun _ _ ih => ih) ?_ h
  intro op args us whole hargs hwhole
  rw [id, value_of_build hwhole, values_of_forall₂ (hargs.imp fun _ _ h => h.2), value_apply]

theorem takes_of_operate {xs : List K} (h : v.operate op xs = some x) : op.Takes xs.length := by
  unfold operate at h
  split at h <;> simp_all [Op.Takes]

theorem length_of_values {ts : List Tree} {xs : List K} (h : v.values ts = some xs) : xs.length = ts.length := by
  induction ts generalizing xs with
  | nil =>
    obtain rfl := Option.some.inj h
    rfl
  | cons t ts ih =>
    obtain ⟨y, -, h⟩ := Option.bind_eq_some_iff.mp h
    obtain ⟨ys, hys, rfl⟩ := Option.map_eq_some_iff.mp h
    simp [ih hys]

mutual

/-- A pass that keeps the value of every node that has one answers a tree of the same value. -/
theorem exists_rebuild_of_value {node : Tree → Tree} (hnode : ∀ t x, v.value t = some x → v.value (node t) = some x)
    {t : Tree} {x : K} (h : v.value t = some x) : ∃ u, t.rebuild node = .ok u ∧ v.value u = some x := by
  match t with
  | .const _ | .symbol _ => exact ⟨_, rfl, hnode _ x h⟩
  | .paren content => exact exists_rebuild_of_value (t := content) hnode (value_paren.symm.trans h)
  | .apply op args =>
    rw [value_apply] at h
    obtain ⟨xs, hxs, hoperate⟩ := Option.bind_eq_some_iff.mp h
    obtain ⟨us, hus, hvalues⟩ := exists_rebuildAll_of_values hnode hxs
    obtain ⟨whole, hwhole⟩ := Tree.exists_build_iff.mpr (length_of_values hvalues ▸ takes_of_operate hoperate)
    refine ⟨node whole, by simp [Tree.rebuild, hus, hwhole], hnode whole x ?_⟩
    rw [value_of_build hwhole, hvalues]
    exact hoperate

theorem exists_rebuildAll_of_values {node : Tree → Tree} (hnode : ∀ t x, v.value t = some x → v.value (node t) = some x)
    {ts : List Tree} {xs : List K} (h : v.values ts = some xs) :
    ∃ us, Tree.rebuildAll node ts = .ok us ∧ v.values us = some xs := by
  match ts with
  | [] => exact ⟨[], rfl, h⟩
  | t :: ts =>
    obtain ⟨y, hy, h⟩ := Option.bind_eq_some_iff.mp h
    obtain ⟨ys, hys, rfl⟩ := Option.map_eq_some_iff.mp h
    obtain ⟨u, hu, hvalue⟩ := exists_rebuild_of_value hnode hy
    obtain ⟨us, hus, hvalues⟩ := exists_rebuildAll_of_values hnode hys
    exact ⟨u :: us, by simp [Tree.rebuildAll, hu, hus], by simp [values_cons, hvalue, hvalues]⟩

end

/-! ### The ring operations -/

theorem value_const {q : ℚ} : v.value (.const q) = some x ↔ x = q :=
  Option.some_inj.trans eq_comm

/-- A quotient has a value if the divisor has an inverse. -/
theorem value_quotient :
    v.value (.apply .div [t, u]) = some x ↔
      ∃ g h k, v.value t = some g ∧ v.value u = some h ∧ h * k = 1 ∧ g * k = x := by
  simp only [value_apply_two, operate, Option.bind_eq_some_iff]
  constructor
  · rintro ⟨g, hg, h, hh, heq⟩
    split_ifs at heq with hzero
    exact ⟨g, h, h⁻¹, hg, hh, mul_inv_cancel₀ hzero, by rw [← div_eq_mul_inv, Option.some.inj heq]⟩
  · rintro ⟨g, h, k, hg, hh, hinverse, rfl⟩
    have hzero : h ≠ 0 := left_ne_zero_of_mul_eq_one hinverse
    exact ⟨g, hg, h, hh, by rw [if_neg hzero, div_eq_mul_inv, eq_inv_of_mul_eq_one_right hinverse]⟩

/-- A valuation reads the ring operations as those of the field. -/
def reading [CharZero K] (v : Valuation K) : Reading K where
  Holds t x := v.value t = some x
  scalar := Rat.castHom K
  const_iff := value_const
  paren_iff := by simp
  neg_iff := by simp [value_apply_one, operate, Option.bind_eq_some_iff, neg_eq_iff_eq_neg]
  add_iff := by simp [value_apply_two, operate, Option.bind_eq_some_iff]
  sub_iff := by simp [value_apply_two, operate, Option.bind_eq_some_iff]
  mul_iff := by simp [value_apply_two, operate, Option.bind_eq_some_iff]
  div_iff := value_quotient

/-- Tidying the coefficients of a tree, distributing its products and writing its quotients as decimals answer trees of the
same value, wherever the tree has one. -/
theorem exists_value_of_passes [CharZero K] (v : Valuation K) (h : v.value t = some x) :
    (∃ u, t.tidyCoefficients = .ok u ∧ v.value u = some x) ∧ (∃ u, t.distribute = .ok u ∧ v.value u = some x) ∧
      ∃ u, t.withDecimals = .ok u ∧ v.value u = some x := by
  refine ⟨exists_rebuild_of_value (fun t x ht => ?_) h, exists_rebuild_of_value (fun t x ht => ?_) h,
    exists_rebuild_of_value (fun t x ht => ?_) h⟩
  · exact Reading.holds_coefficientNode (D := v.reading) ht
  · exact Reading.holds_distributeNode (D := v.reading) ht
  · exact Reading.holds_decimalNode (D := v.reading) ht

/-- All three passes keep the value `9` that `3 * (x^2 - 1)/5` has where `x` is `4` and only squares are defined. -/
theorem exists_value_of_passes_at_four :
    let v : Valuation ℚ := ⟨fun _ => 4, fun x y => if y = 2 then some (x * x) else none, fun _ _ => none⟩
    let t := Tree.apply .div [.apply .mul [.const 3, .paren (.apply .sub [.apply .pow [.symbol "x", .const 2], .const 1])],
      .const 5]
    v.value t = some 9 ∧ (∃ u, t.tidyCoefficients = .ok u ∧ v.value u = some 9) ∧
      (∃ u, t.distribute = .ok u ∧ v.value u = some 9) ∧ ∃ u, t.withDecimals = .ok u ∧ v.value u = some 9 := by
  intro v t
  have h : v.value t = some 9 := by norm_num [v, t, value, values, operate]
  exact ⟨h, exists_value_of_passes v h⟩

end Valuation

end AlgebraTutor
