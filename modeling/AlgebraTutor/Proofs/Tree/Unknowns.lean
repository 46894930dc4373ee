import AlgebraTutor.Tree.Basic

/-!
# The unknowns of a tree

Which unknowns a tree has: those of the symbols among its nodes that do not name a number. Parentheses change nothing about
them, and an operator has those of its operands.
-/

namespace AlgebraTutor.Tree

theorem mem_insertName {name v : String} {names : List String} :
    v ∈ unknowns.insertName name names ↔ v = name ∨ v ∈ names := by
  induction names with
  | nil => simp [unknowns.insertName]
  | cons n names ih =>
    unfold unknowns.insertName
    split
    · simp
    · split
      · rename_i heq
        simp [heq]
      · simp only [List.mem_cons, ih]
        exact or_left_comm

theorem pairwise_insertName {name : String} {names : List String} (h : names.Pairwise (· < ·)) :
    (unknowns.insertName name names).Pairwise (· < ·) := by
  induction names with
  | nil => exact List.pairwise_singleton ..
  | cons n names ih =>
    obtain ⟨hn, hnames⟩ := List.pairwise_cons.mp h
    unfold unknowns.insertName
    split
    · rename_i hlt
      exact List.pairwise_cons.mpr ⟨List.forall_mem_cons.mpr ⟨hlt, fun m hm => String.lt_trans hlt (hn m hm)⟩, h⟩
    · rename_i hle
      split
      · exact h
      · rename_i hne
        have hlt : n < name := by
          rcases String.le_total n name with hle' | hle'
          · exact Std.lt_of_le_of_ne hle' (Ne.symm hne)
          · exact absurd (Std.lt_of_le_of_ne hle' hne) hle
        refine List.pairwise_cons.mpr ⟨fun m hm => ?_, ih hnames⟩
        rcases mem_insertName.mp hm with rfl | hm
        · exact hlt
        · exact hn m hm

theorem mem_unknowns {t : Tree} {v : String} :
    v ∈ t.unknowns ↔ .symbol v ∈ t.nodes ∧ isNamedConstant v = false := by
  unfold unknowns
  have hfold (names : List String) : v ∈ names.foldr unknowns.insertName [] ↔ v ∈ names := by
    induction names with
    | nil => simp
    | cons n names ih => rw [List.foldr_cons, mem_insertName, ih, List.mem_cons]
  rw [hfold, List.mem_filterMap]
  constructor
  · rintro ⟨node, hnode, hname⟩
    split at hname
    · rename_i name
      split at hname
      · simp at hname
      · rename_i hunknown
        obtain rfl := Option.some.inj hname
        exact ⟨hnode, by simpa using hunknown⟩
    · simp at hname
  · rintro ⟨hnode, hname⟩
    exact ⟨.symbol v, hnode, by simp [hname]⟩

/-- No unknown is listed twice. -/
theorem nodup_unknowns (t : Tree) : t.unknowns.Nodup := by
  have hfold (names : List String) : (names.foldr unknowns.insertName []).Pairwise (· < ·) := by
    induction names with
    | nil => exact .nil
    | cons n names ih => exact pairwise_insertName ih
  exact (hfold _).imp (S := (· ≠ ·)) fun hlt heq => String.lt_irrefl _ (heq ▸ hlt)

theorem isConstant_of_unknowns_subset {t u : Tree} (h : ∀ v ∈ u.unknowns, v ∈ t.unknowns) (ht : t.isConstant = true) :
    u.isConstant = true := by
  rw [isConstant, List.isEmpty_iff, List.eq_nil_iff_forall_not_mem] at ht ⊢
  exact fun v hv => ht v (h v hv)

theorem unknowns_paren (t : Tree) : (Tree.paren t).unknowns = t.unknowns := by
  rw [unknowns, unknowns, nodes, List.filterMap_cons]

theorem unknowns_stripParens (t : Tree) : t.stripParens.unknowns = t.unknowns := by
  induction t using stripParens.induct with
  | case1 content ih => rw [stripParens, ih, unknowns_paren]
  | case2 t h => rw [stripParens]; simpa using h

theorem isConstant_stripParens (t : Tree) : t.stripParens.isConstant = t.isConstant := by
  rw [isConstant, isConstant, unknowns_stripParens]

theorem isConstant_parenIf (needed : Bool) (t : Tree) : (parenIf needed t).isConstant = t.isConstant := by
  cases needed
  · rfl
  · rw [parenIf, if_pos rfl, isConstant, isConstant, unknowns_paren]

theorem mem_nodesAll {t : Tree} {ts : List Tree} : t ∈ nodesAll ts ↔ ∃ u ∈ ts, t ∈ u.nodes := by
  induction ts with
  | nil => simp [nodesAll]
  | cons u ts ih => simp [nodesAll, ih]

theorem mem_nodes_self (t : Tree) : t ∈ t.nodes := by
  cases t <;> simp [nodes]

theorem mem_nodes_of_operand {op : Op} {args : List Tree} {a n : Tree} (ha : a ∈ args) (hn : n ∈ a.nodes) :
    n ∈ (apply op args).nodes := by
  rw [nodes, List.mem_cons, mem_nodesAll]
  exact .inr ⟨a, ha, hn⟩

theorem mem_unknowns_apply {op : Op} {args : List Tree} {v : String} :
    v ∈ (apply op args).unknowns ↔ ∃ a ∈ args, v ∈ a.unknowns := by
  simp only [mem_unknowns, nodes, List.mem_cons, mem_nodesAll, reduceCtorEq, false_or]
  constructor
  · rintro ⟨⟨a, ha, hmem⟩, hname⟩
    exact ⟨a, ha, hmem, hname⟩
  · rintro ⟨a, ha, hmem, hname⟩
    exact ⟨⟨a, ha, hmem⟩, hname⟩

theorem unknowns_parenIf (needed : Bool) (t : Tree) : (parenIf needed t).unknowns = t.unknowns := by
  cases needed
  · rfl
  · exact unknowns_paren t

theorem mem_unknowns_binary {op : Op} {t u : Tree} {v : String} :
    v ∈ (binary op t u).unknowns ↔ v ∈ t.unknowns ∨ v ∈ u.unknowns := by
  simp [binary, mem_unknowns_apply, unknowns_parenIf, unknowns_stripParens]

theorem unknowns_const (value : Rat) : (const value).unknowns = [] :=
  rfl

theorem mem_unknowns_of_negate {t : Tree} {v : String} (hv : v ∈ t.negate.unknowns) : v ∈ t.unknowns := by
  rw [← unknowns_stripParens]
  unfold negate at hv
  split at hv
  · simp [unknowns_const] at hv
  · simpa [mem_unknowns_apply, unknowns_parenIf] using hv

/-! ### Constants -/

theorem isConstant_eq_true_iff {t : Tree} : t.isConstant = true ↔ ∀ v, v ∉ t.unknowns := by
  rw [isConstant, List.isEmpty_iff, List.eq_nil_iff_forall_not_mem]

theorem isConstant_apply_one {op : Op} {t : Tree} : (apply op [t]).isConstant = t.isConstant := by
  rw [Bool.eq_iff_iff]
  simp [isConstant_eq_true_iff, mem_unknowns_apply]

theorem isConstant_apply_two {op : Op} {t u : Tree} : (apply op [t, u]).isConstant = (t.isConstant && u.isConstant) := by
  rw [Bool.eq_iff_iff]
  simp [isConstant_eq_true_iff, mem_unknowns_apply, forall_and]

theorem isConstant_paren {t : Tree} : (paren t).isConstant = t.isConstant :=
  isConstant_parenIf true t

theorem isConstant_symbol (name : String) : (symbol name).isConstant = isNamedConstant name := by
  rw [Bool.eq_iff_iff, isConstant_eq_true_iff]
  simp [mem_unknowns, nodes]

end AlgebraTutor.Tree
