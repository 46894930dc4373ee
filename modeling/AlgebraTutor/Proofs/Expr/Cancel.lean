import AlgebraTutor.Expr.Cancel
import AlgebraTutor.Proofs.Answer
import AlgebraTutor.Proofs.Expr.Expand
import AlgebraTutor.Proofs.Tree.Unknowns

/-!
# Normal forms invent no unknowns

Common factors, generators and quotients in lowest terms are made of parts of a value, so its normal form is within every set
of names that it is within itself. A tree whose unknowns are in a set has a value within it.
-/

namespace AlgebraTutor

namespace Expr

variable {S : String → Prop} {E : Engine} {b e r x y : Expr} {es ts : List Expr}

/-! ### Common factors -/

theorem within_termPowers (he : e.Within S) : ∀ p ∈ termPowers e, p.1.Within S := by
  unfold termPowers
  split
  · simp
  · exact List.forall_mem_map.mpr fun f hf => within_decomposePower (within_factors (within_coefficient he) f hf)

theorem within_commonPowers {ps qs : List (Expr × Int)} (h : ∀ p ∈ ps, p.1.Within S) :
    ∀ p ∈ commonPowers ps qs, p.1.Within S := by
  intro p hp
  obtain ⟨q, hq, hcommon⟩ := List.mem_filterMap.mp hp
  have hq := h q hq
  grind

theorem within_factorSum (hE : E.Keeps S) (h : ∀ t ∈ ts, t.Within S) : (factorSum E ts).Within S := by
  have hpowers : ∀ ps ∈ ts.map termPowers, ∀ p ∈ ps, p.1.Within S :=
    List.forall_mem_map.mpr fun t ht => within_termPowers (h t ht)
  unfold factorSum
  split
  · exact within_rawAdd h
  · rename_i p ps hsplit
    rw [hsplit, List.forall_mem_cons] at hpowers
    have hcommon : ∀ c ∈ ps.foldl commonPowers p, c.1.Within S :=
      List.foldlRecOn (motive := fun (qs : List (Expr × Int)) => ∀ c ∈ qs, c.1.Within S) ps commonPowers hpowers.1
        fun qs hqs _ _ => within_commonPowers hqs
    have hpower (exponent : Expr × Int → Rat) :
        ∀ f ∈ (ps.foldl commonPowers p).map fun c => E.power c.1 (num (exponent c)), f.Within S :=
      List.forall_mem_map.mpr fun c hc => hE.power (hcommon c hc) (.num _)
    split
    · exact within_rawAdd h
    · refine hE.product (List.forall_mem_append.mpr ⟨hpower (·.2), List.forall_mem_singleton.mpr ?_⟩)
      exact hE.sum (List.forall_mem_map.mpr fun t ht => hE.product (List.forall_mem_cons.mpr ⟨h t ht, hpower (-·.2)⟩))

theorem within_clearContent (h : ∀ t ∈ ts, t.Within S) : ∀ t ∈ (clearContent ts).2, t.Within S := by
  have hdivided := within_primitive h
  unfold clearContent
  generalize primitive ts = divided at hdivided
  obtain ⟨content, divided⟩ := divided
  dsimp only at hdivided ⊢
  split_ifs
  · exact hdivided
  · intro t ht
    obtain ⟨u, hu, rfl⟩ := List.mem_map.mp (mem_sort.mp ht)
    have hpart := within_coefficient (hdivided u hu)
    grind
  · exact hdivided

theorem within_factorTerms (hE : E.Keeps S) (fuel : Nat) :
    (∀ {e}, e.Within S → (factorTerms E fuel e).Within S) ∧
      ∀ {es}, (∀ e ∈ es, e.Within S) → ∀ e ∈ factorAll E fuel es, e.Within S := by
  induction fuel with
  | zero => exact ⟨fun he => by simpa [factorTerms] using he, fun hes => by simpa [factorAll] using hes⟩
  | succ fuel ih =>
    obtain ⟨ihTerms, ihAll⟩ := ih
    refine ⟨fun he => ?_, fun hes => List.forall_mem_map.mpr fun e he => ihTerms (hes e he)⟩
    unfold factorTerms
    split
    · have hinner := ihAll (within_clearContent (within_add.mp he))
      dsimp only
      split
      · exact hE.keepCoefficient _ (within_factorSum hE (List.forall_mem_map.mpr fun t ht => within_neg (hinner t ht)))
      · exact hE.keepCoefficient _ (within_factorSum hE hinner)
    · exact hE.product (ihAll (within_mul.mp he))
    · dsimp only
      split
      · exact he
      · exact within_rebuild hE he (ihAll (within_children he))

/-! ### Lowest terms -/

theorem within_generatorPower (hE : E.Keeps S) (he : e.Within S) : (generatorPower E e).1.Within S := by
  have hbase := within_decomposePower he
  unfold generatorPower
  grind

theorem within_splitTerm (hE : E.Keeps S) (he : e.Within S) : ∀ p ∈ (splitTerm E e).2, p.1.Within S := by
  unfold splitTerm
  split
  · simp
  · exact List.forall_mem_map.mpr fun f hf => within_generatorPower hE (within_factors (within_coefficient he) f hf)

theorem within_ofNested (hE : E.Keeps S) {gens : List Generator} (hgens : ∀ g ∈ gens, g.value.Within S) (scale : Rat)
    (p : Nested gens.length) : (ofNested E gens scale p).Within S := by
  refine hE.sum (List.forall_mem_map.mpr fun t _ => hE.product (List.forall_mem_cons.mpr ⟨.num _, ?_⟩))
  exact List.forall_mem_map.mpr fun g hg => hE.power (hgens g.1 (List.of_mem_zip hg).1) (.num _)

theorem within_lowestTerms (hE : E.Keeps S) {gens : List Generator} (hgens : ∀ g ∈ gens, g.value.Within S)
    (ps qs : List (Rat × List (Expr × Nat))) : (lowestTerms E gens ps qs).Within S := by
  unfold lowestTerms
  dsimp only
  split_ifs
  · exact within_zero
  · exact .infinite
  all_goals exact hE.quotient (within_ofNested hE hgens _ _) (within_ofNested hE hgens _ _)

theorem within_cancel (hE : E.Keeps S) (he : e.Within S) : (cancel E e).Within S := by
  unfold cancel
  split
  · exact he
  · have hfactored := (within_factorTerms hE factorDepth).1 he
    have hfraction := within_asFraction hE hfactored
    dsimp -zeta only
    extract_lets factored ps qs values
    have hsplit {p : Expr} (hp : p.Within S) :
        ∀ t ∈ (E.expand p).terms.map (splitTerm E), ∀ f ∈ t.2, f.1.Within S :=
      List.forall_mem_map.mpr fun t ht => within_splitTerm hE (within_terms (hE.expand hp) t ht)
    have hvalues : ∀ v ∈ values, v.Within S := by
      intro v hv
      obtain ⟨t, ht, hmem⟩ := List.mem_flatMap.mp (mem_sort.mp (mem_of_mem_dedup hv))
      obtain ⟨f, hf, rfl⟩ := List.mem_map.mp hmem
      exact (List.mem_append.mp ht).elim (hsplit hfraction.1 t · f hf) (hsplit hfraction.2 t · f hf)
    clear_value values
    cases values with
    | nil => exact hE.expand hfactored
    | cons value values =>
      refine within_lowestTerms hE (fun g hg => ?_) ps qs
      obtain ⟨v, hv, rfl⟩ := List.mem_map.mp (List.mem_mergeSort.mp hg)
      exact hvalues v hv

/-- The normal form of a value has no other unknowns. -/
theorem within_normalForm (hE : E.Keeps S) (he : e.Within S) : (normalForm E e).Within S :=
  hE.expand (within_cancel hE he)

/-! ### The value of a tree -/

theorem within_ofCall {node : Tree} {name : String} {value : Expr} (hes : ∀ e ∈ es, e.Within S)
    (h : ofCall node name es = .ok value) : value.Within S := by
  have hE := keeps_engine S
  unfold ofCall at h
  split_ifs at h
  · split at h
    · obtain rfl := Except.ok.inj h
      exact hE.sqrt (hes _ (by simp))
    · rename_i a flag
      have ha : a.Within S := hes a (by simp)
      obtain rfl := Except.ok.inj h
      split
      · exact .pow ha within_half
      · exact hE.sqrt ha
    · simp at h
  · split at h
    · obtain rfl := Except.ok.inj h
      exact hE.apply (hes _ (by simp))
    · rename_i a b
      obtain rfl := Except.ok.inj h
      split
      · exact .indeterminate
      · exact within_logOfBase hE (hes a (by simp)) (hes b (by simp))
    · simp at h
  · split at h
    · split at h
      · obtain rfl := Except.ok.inj h
        exact hE.apply (hes _ (by simp))
      · simp at h
    · obtain ⟨_, -, h⟩ := Answer.bind_eq_ok_iff.mp h
      simp at h

theorem within_ofOperator {node : Tree} {op : Op} {value : Expr} (hes : ∀ e ∈ es, e.Within S)
    (h : ofOperator node op es = .ok value) : value.Within S := by
  have hE := keeps_engine S
  unfold ofOperator at h
  split at h
  · exact within_ofCall hes h
  · obtain rfl := Except.ok.inj h
    exact within_neg (hes _ (by simp))
  case h_8 => simp at h
  all_goals
    obtain rfl := Except.ok.inj h
    have ha := hes _ List.mem_cons_self
    have hb := hes _ (List.mem_cons_of_mem _ List.mem_cons_self)
  · exact hE.sum_pair ha hb
  · exact hE.difference ha hb
  · exact hE.product_pair ha hb
  · exact hE.quotient ha hb
  · exact hE.power ha hb

mutual

/-- The unknowns of the value of a tree are unknowns of the tree. -/
theorem within_ofTree {t : Tree} {value : Expr} (ht : ∀ v ∈ t.unknowns, S v) (h : ofTree t = .ok value) :
    value.Within S := by
  match t with
  | .const q =>
    obtain rfl := Except.ok.inj h
    exact .num q
  | .symbol name =>
    obtain rfl := Except.ok.inj h
    split_ifs with hpi he
    · exact within_pi
    · exact within_e
    · exact .symbol (ht name (Tree.mem_unknowns.mpr ⟨by simp [Tree.nodes], by simp [Tree.isNamedConstant, hpi, he]⟩))
  | .paren content => exact within_ofTree (t := content) (by rwa [Tree.unknowns_paren] at ht) h
  | .apply op args =>
    obtain ⟨values, hvalues, h⟩ := Answer.bind_eq_ok_iff.mp h
    exact within_ofOperator (within_ofTrees (fun a ha v hv => ht v (Tree.mem_unknowns_apply.mpr ⟨a, ha, hv⟩)) hvalues) h

theorem within_ofTrees {args : List Tree} {values : List Expr} (hargs : ∀ a ∈ args, ∀ v ∈ a.unknowns, S v)
    (h : ofTrees args = .ok values) : ∀ e ∈ values, e.Within S := by
  match args with
  | [] =>
    obtain rfl := Except.ok.inj h
    simp
  | a :: args =>
    obtain ⟨value, hvalue, h⟩ := Answer.bind_eq_ok_iff.mp h
    obtain ⟨rest, hrest, heq⟩ := Answer.bind_eq_ok_iff.mp h
    obtain rfl := Answer.pure_eq_ok_iff.mp heq
    obtain ⟨ha, hargs⟩ := List.forall_mem_cons.mp hargs
    exact List.forall_mem_cons.mpr ⟨within_ofTree ha hvalue, within_ofTrees hargs hrest⟩

end

end Expr

end AlgebraTutor
