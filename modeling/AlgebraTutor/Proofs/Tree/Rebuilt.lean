import AlgebraTutor.Proofs.Answer
import AlgebraTutor.Tree.Basic

/-!
# Rebuilding a tree

What rebuilding answers, constructor by constructor: parentheses are passed over, and an operator is built again over what its
operands are rebuilt to. So what holds of each leaf and what is made of it, and of each operator over operands of which it
holds, holds of every tree and what it is rebuilt to.
-/

namespace AlgebraTutor.Tree

variable {f : Tree → Tree} {t u : Tree} {op : Op} {args ts us : List Tree}

theorem rebuild_stripParens (t : Tree) : t.stripParens.rebuild f = t.rebuild f := by
  induction t using stripParens.induct with
  | case1 content ih => exact ih
  | case2 t hplain => rw [stripParens.eq_2 t hplain]

theorem rebuild_parenIf (needed : Bool) (t : Tree) : (parenIf needed t).rebuild f = t.rebuild f := by
  cases needed <;> rfl

theorem rebuild_apply_eq_ok_iff :
    (apply op args).rebuild f = .ok u ↔ ∃ us, rebuildAll f args = .ok us ∧ ∃ whole, build op us = .ok whole ∧ f whole = u := by
  refine Answer.bind_eq_ok_iff.trans ?_
  simp only [Answer.bind_eq_ok_iff, Answer.pure_eq_ok_iff]

theorem rebuildAll_eq_ok_iff : rebuildAll f ts = .ok us ↔ List.Forall₂ (fun t u => t.rebuild f = .ok u) ts us := by
  induction ts generalizing us with
  | nil =>
    rw [List.forall₂_nil_left_iff]
    exact ⟨fun h => (Except.ok.inj h).symm, fun h => by rw [h]; rfl⟩
  | cons t ts ih =>
    refine Answer.bind_eq_ok_iff.trans ?_
    simp only [Answer.bind_eq_ok_iff, Answer.pure_eq_ok_iff, ih, List.forall₂_cons_left_iff]
    constructor
    · rintro ⟨u, hu, us, hus, rfl⟩
      exact ⟨u, us, hu, hus, rfl⟩
    · rintro ⟨u, us, hu, hus, rfl⟩
      exact ⟨u, hu, us, hus, rfl⟩

theorem length_of_rebuildAll (h : rebuildAll f ts = .ok us) : us.length = ts.length :=
  (rebuildAll_eq_ok_iff.mp h).length_eq.symm

/-- Trees that are each rebuilt to themselves. -/
theorem rebuildAll_eq_self (h : ∀ t ∈ ts, t.rebuild f = .ok t) : rebuildAll f ts = .ok ts :=
  rebuildAll_eq_ok_iff.mpr (List.forall₂_same.mpr h)

mutual

/-- The induction along rebuilding. -/
theorem rebuild_induction {P : Tree → Tree → Prop} (const : ∀ value, P (.const value) (f (.const value)))
    (symbol : ∀ name, P (.symbol name) (f (.symbol name))) (paren : ∀ t u, P t u → P (.paren t) u)
    (apply : ∀ op args us whole, List.Forall₂ (fun t u => t.rebuild f = .ok u ∧ P t u) args us → build op us = .ok whole →
      P (.apply op args) (f whole))
    {t u : Tree} (h : t.rebuild f = .ok u) : P t u := by
  match t with
  | .const value => exact Except.ok.inj h ▸ const value
  | .symbol name => exact Except.ok.inj h ▸ symbol name
  | .paren content => exact paren content u (rebuild_induction const symbol paren apply (t := content) h)
  | .apply op args =>
    obtain ⟨us, hus, whole, hwhole, rfl⟩ := rebuild_apply_eq_ok_iff.mp h
    exact apply op args us whole (rebuildAll_induction const symbol paren apply (rebuildAll_eq_ok_iff.mp hus)) hwhole

theorem rebuildAll_induction {P : Tree → Tree → Prop} (const : ∀ value, P (.const value) (f (.const value)))
    (symbol : ∀ name, P (.symbol name) (f (.symbol name))) (paren : ∀ t u, P t u → P (.paren t) u)
    (apply : ∀ op args us whole, List.Forall₂ (fun t u => t.rebuild f = .ok u ∧ P t u) args us → build op us = .ok whole →
      P (.apply op args) (f whole))
    {ts us : List Tree} (h : List.Forall₂ (fun t u => t.rebuild f = .ok u) ts us) :
    List.Forall₂ (fun t u => t.rebuild f = .ok u ∧ P t u) ts us := by
  match ts, us, h with
  | [], [], .nil => exact .nil
  | t :: ts, u :: us, .cons hu hus =>
    exact .cons ⟨hu, rebuild_induction const symbol paren apply hu⟩ (rebuildAll_induction const symbol paren apply hus)

end

end AlgebraTutor.Tree
