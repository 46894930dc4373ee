import AlgebraTutor.Proofs.Tree.Unknowns

/-!
# The functions that a tree calls

A tree calls only functions with a property if each of its nodes that is a call names one. Parentheses and signs change
nothing about that, and an operator calls what its operands do.
-/

namespace AlgebraTutor.Tree

/-- The tree calls only functions with the property `F`. -/
def CallsOnly (F : String → Prop) (t : Tree) : Prop :=
  ∀ f args, .apply (.call f) args ∈ t.nodes → F f

variable {F : String → Prop} {t u : Tree} {op : Op} {args : List Tree}

theorem callsOnly_const (value : Rat) : (const value).CallsOnly F := by
  simp [CallsOnly, nodes]

theorem callsOnly_symbol (name : String) : (symbol name).CallsOnly F := by
  simp [CallsOnly, nodes]

theorem callsOnly_paren : (paren t).CallsOnly F ↔ t.CallsOnly F := by
  simp [CallsOnly, nodes]

theorem callsOnly_stripParens : t.stripParens.CallsOnly F ↔ t.CallsOnly F := by
  induction t using stripParens.induct with
  | case1 content ih => rw [stripParens, ih, callsOnly_paren]
  | case2 t h => rw [stripParens]; simpa using h

theorem callsOnly_parenIf {needed : Bool} : (parenIf needed t).CallsOnly F ↔ t.CallsOnly F := by
  cases needed
  · rfl
  · exact callsOnly_paren

theorem callsOnly_apply : (apply op args).CallsOnly F ↔ (∀ f, op = .call f → F f) ∧ ∀ a ∈ args, a.CallsOnly F := by
  simp only [CallsOnly, nodes, List.mem_cons, mem_nodesAll, apply.injEq]
  constructor
  · intro h
    exact ⟨fun f hop => h f args (.inl ⟨hop.symm, rfl⟩), fun a ha f args' hmem => h f args' (.inr ⟨a, ha, hmem⟩)⟩
  · rintro ⟨hop, hargs⟩ f args' (⟨rfl, rfl⟩ | ⟨a, ha, hmem⟩)
    · exact hop f rfl
    · exact hargs a ha f args' hmem

theorem callsOnly_arithmetic (hop : op.isArithmetic = true) : (apply op args).CallsOnly F ↔ ∀ a ∈ args, a.CallsOnly F := by
  rw [callsOnly_apply, and_iff_right]
  rintro f rfl
  simp [Op.isArithmetic] at hop

theorem callsOnly_negate : t.negate.CallsOnly F ↔ t.CallsOnly F := by
  rw [← callsOnly_stripParens (t := t)]
  unfold negate
  split
  · rename_i value hvalue
    exact iff_of_true (callsOnly_const _) (hvalue ▸ callsOnly_const value)
  · rw [callsOnly_arithmetic rfl, List.forall_mem_singleton, callsOnly_parenIf]

theorem callsOnly_binary (hop : op.isArithmetic = true) :
    (binary op t u).CallsOnly F ↔ t.CallsOnly F ∧ u.CallsOnly F := by
  rw [binary, callsOnly_arithmetic hop]
  simp [callsOnly_parenIf, callsOnly_stripParens]

theorem callsOnly_call {f : String} : (call f args).CallsOnly F ↔ F f ∧ ∀ a ∈ args, a.CallsOnly F := by
  rw [call, callsOnly_apply]
  simp [callsOnly_stripParens]

end AlgebraTutor.Tree
