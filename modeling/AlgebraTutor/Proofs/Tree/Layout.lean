import AlgebraTutor.Proofs.Expr.Cancel
import AlgebraTutor.Proofs.Polynomial.Layout
import AlgebraTutor.Proofs.Tree.Assembled

/-!
# What simplifying lays out

A polynomial is laid out as a tree of integers and of its own unknowns, and any other value as one of integers, of its own
unknowns, of named constants and of calls of square roots and of the functions that values are made of. So whatever
simplifying answers is assembled of the unknowns of the tree that is simplified, and well-formed.
-/

namespace AlgebraTutor

/-! ### Layouts of polynomials -/

namespace Polynomial

variable {S F : String → Prop}

theorem assembled_toTrees {m : Monomial} (hm : ∀ f ∈ m, S f.1) : ∀ t ∈ m.toTrees, t.Assembled S F := by
  refine List.forall_mem_map.mpr fun f hf => ?_
  unfold Monomial.factorTree
  split
  · exact .symbol (hm f hf)
  · exact .binary rfl (.symbol (hm f hf)) (.integer f.2)

theorem assembled_termTree {m : Monomial} (hm : ∀ f ∈ m, S f.1) (c : Rat) : (termTree m c).Assembled S F := by
  have hnumerator := Tree.Assembled.integerMultiple c.num (assembled_toTrees (F := F) hm)
  unfold termTree
  split
  · exact .ofRat c
  · split
    · exact hnumerator
    · exact .binary rfl hnumerator (.integer c.den)

theorem assembled_appendTerms {t : Tree} (ht : t.Assembled S F) {rest : List (Monomial × Rat)}
    (hrest : ∀ s ∈ rest, ∀ f ∈ s.1, S f.1) : (appendTerms t rest).Assembled S F := by
  induction rest generalizing t with
  | nil => exact ht
  | cons s rest ih =>
    have hs := hrest s List.mem_cons_self
    rw [appendTerms]
    refine ih ?_ fun r hr => hrest r (List.mem_cons_of_mem s hr)
    split
    · exact .binary rfl ht (assembled_termTree hs _)
    · exact .binary rfl ht (assembled_termTree hs _)

/-- A polynomial is laid out as a tree of integers and of its own unknowns. -/
theorem assembled_toTree {p : Polynomial} (hp : ∀ s ∈ p, ∀ f ∈ s.1, S f.1) : p.toTree.Assembled S F := by
  have hdisplay : ∀ s ∈ p.displayOrder, ∀ f ∈ s.1, S f.1 := fun s hs => hp s (p.displayOrder_perm.subset hs)
  rw [toTree_eq_layout]
  cases hterms : p.displayOrder with
  | nil => exact .integer 0
  | cons s rest =>
    rw [hterms] at hdisplay
    exact assembled_appendTerms (assembled_termTree (hdisplay s List.mem_cons_self) s.2) fun r hr =>
      hdisplay r (List.mem_cons_of_mem s hr)

end Polynomial

/-! ### Layouts of values -/

namespace Expr

/-- The functions that a value is written with. -/
def IsDisplayName (f : String) : Prop :=
  f = "sqrt" ∨ ∃ g, f = displayName g

variable {S : String → Prop}

mutual

theorem assembled_layOut (hnamed : ∀ v, Tree.isNamedConstant v = true → S v) {fuel : Nat} {value : Expr} {t : Tree}
    (hvalue : value.Within S) (h : layOut fuel value = .ok t) : t.Assembled S IsDisplayName := by
  match fuel, value with
  | 0, _ => simp [layOut] at h
  | _ + 1, num q =>
    obtain rfl := Except.ok.inj h
    exact .ofRat q
  | _ + 1, symbol name =>
    obtain rfl := Except.ok.inj h
    exact .symbol (within_symbol.mp hvalue)
  | _ + 1, named .e | _ + 1, named .pi =>
    obtain rfl := Except.ok.inj h
    exact .symbol (hnamed _ rfl)
  | _ + 1, named .i | _ + 1, infinite | _ + 1, indeterminate => simp [layOut] at h
  | fuel + 1, add ts =>
    have hterms : ∀ t ∈ (add ts).orderedTerms, t.Within S := fun t ht => within_terms hvalue t (mem_of_mem_orderedTerms ht)
    rw [layOut] at h
    split at h
    · obtain rfl := Except.ok.inj h
      exact .integer 0
    · rename_i hordered
      rw [hordered, List.forall_mem_cons] at hterms
      obtain ⟨first, hfirst, h⟩ := Answer.bind_eq_ok_iff.mp h
      exact assembled_layOutTerms hnamed hterms.2 (assembled_layOut hnamed hterms.1 hfirst) h
  | fuel + 1, mul fs =>
    have hrest : ∀ f ∈ (mul fs).coefficient.2.orderedFactors, f.Within S := fun f hf =>
      within_factors (within_coefficient hvalue) f (mem_orderedFactors.mp hf)
    rw [layOut] at h
    simp only at h
    split at h
    · exact assembled_quotient hnamed hvalue h
    · obtain ⟨factors, hfactors, h⟩ := Answer.bind_eq_ok_iff.mp h
      have hfactors := assembled_layOutAll hnamed hrest hfactors
      split_ifs at h <;> obtain rfl := Answer.pure_eq_ok_iff.mp h
      · exact .productOf (.negateFirst hfactors)
      · exact .productOf hfactors
      · exact .productOf (List.forall_mem_cons.mpr ⟨.ofRat _, hfactors⟩)
  | fuel + 1, pow b x =>
    obtain ⟨hb, hx⟩ := within_basePower hvalue
    rw [layOut] at h
    simp only at h
    split at h
    · exact assembled_quotient hnamed hvalue h
    · obtain ⟨base, hbase, h⟩ := Answer.bind_eq_ok_iff.mp h
      split_ifs at h
      · obtain rfl := Answer.pure_eq_ok_iff.mp h
        exact .call (.inl rfl) (assembled_layOut hnamed hb hbase)
      · obtain ⟨exponent, hexponent, heq⟩ := Answer.bind_eq_ok_iff.mp h
        obtain rfl := Answer.pure_eq_ok_iff.mp heq
        exact .binary rfl (assembled_layOut hnamed hb hbase) (assembled_layOut hnamed hx hexponent)
  | fuel + 1, fn f x =>
    obtain ⟨argument, hargument, heq⟩ := Answer.bind_eq_ok_iff.mp h
    obtain rfl := Answer.pure_eq_ok_iff.mp heq
    exact .call (.inr ⟨f, rfl⟩) (assembled_layOut hnamed (within_fn.mp hvalue) hargument)

theorem assembled_quotient (hnamed : ∀ v, Tree.isNamedConstant v = true → S v) {fuel : Nat} {value : Expr} {t : Tree}
    (hvalue : value.Within S)
    (h : (do
      let n ← layOut fuel (asFraction engine value).1
      let d ← layOut fuel (asFraction engine value).2
      return Tree.binary .div n d) = Except.ok t) : t.Assembled S IsDisplayName := by
  obtain ⟨hn, hd⟩ := within_asFraction (keeps_engine S) hvalue
  obtain ⟨numerator, hnumerator, h⟩ := Answer.bind_eq_ok_iff.mp h
  obtain ⟨divisor, hdivisor, heq⟩ := Answer.bind_eq_ok_iff.mp h
  obtain rfl := Answer.pure_eq_ok_iff.mp heq
  exact .binary rfl (assembled_layOut hnamed hn hnumerator) (assembled_layOut hnamed hd hdivisor)

theorem assembled_layOutAll (hnamed : ∀ v, Tree.isNamedConstant v = true → S v) {fuel : Nat} {es : List Expr}
    {ts : List Tree} (hes : ∀ e ∈ es, e.Within S) (h : layOutAll fuel es = .ok ts) :
    ∀ t ∈ ts, t.Assembled S IsDisplayName := by
  match fuel with
  | 0 => simp [layOutAll] at h
  | fuel + 1 => exact Answer.forall_of_mapM_eq_ok (fun e he _ => assembled_layOut hnamed (hes e he)) h

theorem assembled_layOutTerms (hnamed : ∀ v, Tree.isNamedConstant v = true → S v) {fuel : Nat} {sum t : Tree}
    {es : List Expr} (hes : ∀ e ∈ es, e.Within S) (hsum : sum.Assembled S IsDisplayName)
    (h : layOutTerms fuel sum es = .ok t) : t.Assembled S IsDisplayName := by
  match fuel with
  | 0 => simp [layOutTerms] at h
  | fuel + 1 =>
    refine Answer.of_foldlM_eq_ok (fun e he sum t hsum h => ?_) hsum h
    have he := hes e he
    split at h <;> obtain ⟨term, hterm, heq⟩ := Answer.bind_eq_ok_iff.mp h <;>
      obtain rfl := Answer.pure_eq_ok_iff.mp heq
    · exact .binary rfl hsum (assembled_layOut hnamed (within_neg he) hterm)
    · exact .binary rfl hsum (assembled_layOut hnamed he hterm)

end

theorem assembled_toTree (hnamed : ∀ v, Tree.isNamedConstant v = true → S v) {value : Expr} {t : Tree}
    (hvalue : value.Within S) (h : value.toTree = .ok t) : t.Assembled S IsDisplayName := by
  rw [toTree] at h
  split at h
  · simp at h
  · exact assembled_layOut hnamed hvalue h

end Expr

namespace Tree

variable {t u : Tree} {S : String → Prop}

theorem assembled_toTree_of_polynomial? (ht : ∀ v ∈ t.unknowns, S v) {p : Polynomial} (hp : t.polynomial? = some p) :
    p.toTree.Assembled S Expr.IsDisplayName := by
  obtain ⟨hcanonical, hdenotes⟩ := polynomial?_sound hp
  refine Polynomial.assembled_toTree fun s hs f hf => ht f.1 ?_
  exact hdenotes.mem_unknowns_of_mem_vars (Polynomial.mem_vars_of_mem hcanonical hs hf)

/-- Simplifying answers a tree of integers, of unknowns of the tree, of named constants and of calls of the functions that
values are made of. -/
theorem assembled_simplify (hnamed : ∀ v, isNamedConstant v = true → S v) (ht : ∀ v ∈ t.unknowns, S v)
    (h : t.simplify = .ok u) : u.Assembled S Expr.IsDisplayName := by
  rw [simplify] at h
  split at h
  · rename_i hp
    obtain rfl := Except.ok.inj h
    exact assembled_toTree_of_polynomial? ht hp
  · obtain ⟨value, hvalue, h⟩ := Answer.bind_eq_ok_iff.mp h
    split at h
    · simp at h
    · exact Expr.assembled_toTree hnamed (Expr.within_normalForm (Expr.keeps_engine S) (Expr.within_ofTree ht hvalue)) h

theorem assembled_expand (hnamed : ∀ v, isNamedConstant v = true → S v) (ht : ∀ v ∈ t.unknowns, S v)
    (h : t.expand = .ok u) : u.Assembled S Expr.IsDisplayName := by
  rw [expand] at h
  split at h
  · rename_i hp
    obtain rfl := Except.ok.inj h
    exact assembled_toTree_of_polynomial? ht hp
  · obtain ⟨value, hvalue, h⟩ := Answer.bind_eq_ok_iff.mp h
    exact Expr.assembled_toTree hnamed ((Expr.keeps_engine S).expand (Expr.within_ofTree ht hvalue)) h

theorem wellFormed_of_simplify (h : t.simplify = .ok u) : u.WellFormed :=
  (assembled_simplify (S := fun _ => True) (fun _ _ => trivial) (fun _ _ => trivial) h).wellFormed

theorem wellFormed_of_expand (h : t.expand = .ok u) : u.WellFormed :=
  (assembled_expand (S := fun _ => True) (fun _ _ => trivial) (fun _ _ => trivial) h).wellFormed

end Tree

end AlgebraTutor
