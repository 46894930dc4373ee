import AlgebraTutor.Expr.Expand
import AlgebraTutor.Proofs.Expr.Function

/-!
# Expansion invents no unknowns

Multiplying out keeps a value within a set of names, so the operations on values, however often they call one another, keep
within every set.
-/

namespace AlgebraTutor.Expr

variable {S : String → Prop} {E : Engine} {b e r x y : Expr} {es ts : List Expr}

/-! ### One step at one node -/

theorem within_expandLogOf (hE : E.Keeps S) {fuel : Nat} (hx : x.Within S) : (expandLogOf E fuel x).Within S := by
  have hlog {x : Expr} (hx : x.Within S) := hE.apply (f := .log) hx
  induction fuel generalizing x with
  | zero => exact hlog hx
  | succ fuel ih =>
    have hnext {x a : Expr} (hx : x.Within S) (hvalue : E.apply .log x = fn .log a) : (expandLogOf E fuel a).Within S :=
      ih (within_fn.mp (hvalue ▸ hlog hx))
    unfold expandLogOf
    split
    · split
      · split
        · exact hE.product_pair (.num _) (hlog (.num _))
        · exact hlog hx
      · exact hE.difference (hlog (.num _)) (hlog (.num _))
    · have hfactors := within_mul.mp hx
      extract_lets parts
      have hparts : ∀ p ∈ parts, (∀ v, p.1 = some v → v.Within S) ∧ ∀ v, p.2 = some v → v.Within S := by
        refine List.forall_mem_map.mpr fun f hf => ?_
        have hf := hfactors f hf
        have hneg := hlog (within_neg hf)
        dsimp only
        split_ifs
        · refine ⟨fun v hv => ?_, by simp⟩
          obtain rfl := Option.some.inj hv
          split
          · exact hnext hf ‹_›
          · exact hlog hf
        · exact ⟨by simp [hneg], by simp⟩
        · exact ⟨by simp, by simp [hf]⟩
      have hlogs : ∀ v ∈ parts.filterMap (·.1), v.Within S := fun v hv => by
        obtain ⟨p, hp, hvalue⟩ := List.mem_filterMap.mp hv
        exact (hparts p hp).1 v hvalue
      have hrest : ∀ v ∈ parts.filterMap (·.2), v.Within S := fun v hv => by
        obtain ⟨p, hp, hvalue⟩ := List.mem_filterMap.mp hv
        exact (hparts p hp).2 v hvalue
      exact hE.sum (List.forall_mem_append.mpr ⟨hlogs, List.forall_mem_singleton.mpr (hlog (hE.product hrest))⟩)
    · obtain ⟨hb, hy⟩ := within_pow.mp hx
      dsimp -zeta only
      extract_lets exponent small
      split
      · split
        · exact hE.product_pair hy (hnext hb ‹_›)
        · exact hE.product_pair hy (hlog hb)
      · exact hlog hx
    · have hbase := within_basePower hx
      dsimp -zeta only
      extract_lets exponent small
      split
      · split
        · exact hE.product_pair hbase.2 (hnext hbase.1 ‹_›)
        · exact hE.product_pair hbase.2 (hlog hbase.1)
      · exact hlog hx
    · exact hlog hx

theorem within_expandLog (hE : E.Keeps S) (he : e.Within S) : (expandLog E e).Within S := by
  unfold expandLog
  split
  · exact within_expandLogOf hE (within_fn.mp he)
  · exact he

theorem within_crossProducts (hE : E.Keeps S) (has : ∀ a ∈ es, a.Within S) (hbs : ∀ b ∈ ts, b.Within S) :
    (crossProducts E es ts).Within S := by
  refine hE.sum fun e he => ?_
  simp only [List.mem_flatMap, List.mem_map] at he
  obtain ⟨a, ha, b, hb, rfl⟩ := he
  exact hE.product_pair (has a ha) (hbs b hb)

theorem within_multiplySums (hE : E.Keeps S) {sums : List (List Expr)} (h : ∀ ts ∈ sums, ∀ t ∈ ts, t.Within S) :
    ∀ t ∈ multiplySums E sums, t.Within S := by
  induction sums using multiplySums.induct with
  | case1 => simp [multiplySums]
  | case2 ts => simpa [multiplySums] using h
  | case3 ts rest hne ih =>
    rw [multiplySums]
    · obtain ⟨hts, hrest⟩ := List.forall_mem_cons.mp h
      exact within_terms (within_crossProducts hE hts (ih hrest))
    · exact hne

theorem within_expandMulWithin (hE : E.Keeps S) {fuel : Nat} (he : e.Within S) : (expandMulWithin E fuel e).Within S := by
  induction fuel generalizing e with
  | zero => exact he
  | succ fuel ih =>
    unfold expandMulWithin
    split
    · have hfraction := within_shallowFraction hE he
      dsimp -zeta only
      extract_lets whole
      have hwhole : whole.Within S := by
        unfold whole
        split
        · exact hE.quotient (ih hfraction.1) (ih hfraction.2)
        · exact hE.quotient hfraction.1 hfraction.2
      clear_value whole
      split
      · have hfactors := within_mul.mp hwhole
        dsimp only
        split
        · exact hwhole
        · refine hE.sum (List.forall_mem_map.mpr fun t ht => hE.product_pair ?_ ?_)
          · exact hE.product fun f hf => hfactors f (List.mem_filter.mp hf).1
          · refine within_multiplySums hE (List.forall_mem_map.mpr fun f hf => ?_) t ht
            exact within_terms (hfactors f (List.mem_filter.mp hf).1)
      · exact hwhole
    · exact he

theorem within_expandMul (hE : E.Keeps S) (he : e.Within S) : (expandMul E e).Within S :=
  within_expandMulWithin hE he

theorem within_multinomialPower (hE : E.Keeps S) (h : ∀ t ∈ ts, t.Within S) (n : Nat) : (multinomialPower E ts n).Within S := by
  refine hE.sum (List.forall_mem_map.mpr fun p _ => hE.product (List.forall_mem_cons.mpr ⟨.num _, ?_⟩))
  exact List.forall_mem_map.mpr fun q hq => hE.power (h q.1 (List.of_mem_zip hq).1) (.num _)

theorem within_expandMultinomial (hE : E.Keeps S) (he : e.Within S) : (expandMultinomial E e).Within S := by
  unfold expandMultinomial
  split
  · rename_i ts q
    have hsum := (within_pow.mp he).1
    have hterms := within_add.mp hsum
    extract_lets size expanded
    have hexpanded (r : Rat) : (expanded r).Within S := by
      have hradical (q : Rat) := hE.power hsum (.num q)
      unfold expanded
      split
      · exact within_multinomialPower hE hterms _
      · refine hE.sum (List.forall_mem_map.mpr fun t ht => hE.product_pair ?_ (hradical _))
        refine within_terms ?_ t ht
        split
        · rename_i hpower
          have hpowered := within_pow.mp (hpower ▸ hradical _)
          exact within_multinomialPower hE (within_add.mp hpowered.1) _
        · exact hradical _
    split_ifs
    · exact he
    · exact hE.power (hexpanded _) within_minusOne
    · exact hexpanded _
  · obtain ⟨hb, hx⟩ := within_pow.mp he
    have hx := within_add.mp hx
    split
    · exact he
    · refine hE.product (List.forall_mem_append.mpr ⟨List.forall_mem_map.mpr fun x hmem => ?_, ?_⟩)
      · exact hE.power hb (hx x (List.mem_filter.mp hmem).1)
      · exact List.forall_mem_singleton.mpr (hE.power hb (within_rawAdd fun x hmem => hx x (List.mem_filter.mp hmem).1))
  · exact he

theorem within_expandPowerBase (hE : E.Keeps S) (he : e.Within S) : (expandPowerBase E e).Within S := by
  unfold expandPowerBase
  split
  · obtain ⟨hfactors, hx⟩ := within_pow.mp he
    have hfactors := within_mul.mp hfactors
    split
    · split
      · exact hE.product (List.forall_mem_map.mpr fun f hf => .pow (hfactors f hf) hx)
      · exact within_splitBase hE hfactors hx
    · exact within_splitBase hE hfactors hx
  · exact he

theorem within_expandPowerExp (hE : E.Keeps S) (he : e.Within S) : (expandPowerExp E e).Within S := by
  unfold expandPowerExp
  split
  · obtain ⟨hb, hx⟩ := within_pow.mp he
    split
    · exact hE.product (List.forall_mem_map.mpr fun x hmem => hE.power hb (within_add.mp hx x hmem))
    · exact he
  · split
    · have hx := within_add.mp (within_fn.mp he)
      exact hE.product (List.forall_mem_map.mpr fun x hmem => hE.apply (hx x hmem))
    · exact hE.apply (within_fn.mp he)
  · exact he

/-! ### All nodes -/

theorem within_rebuild (hE : E.Keeps S) (he : e.Within S) (h : ∀ p ∈ es, p.Within S) : (rebuild E e es).Within S := by
  unfold rebuild
  split
  · exact hE.sum h
  · exact hE.product h
  · exact hE.power (h _ (by simp)) (h _ (by simp))
  · exact hE.apply (h _ (by simp))
  · exact he

theorem within_children (he : e.Within S) : ∀ c ∈ e.children, c.Within S := by
  cases he <;> simp_all [children]

theorem within_everywhere (hE : E.Keeps S) {step : Expr → Expr} (hstep : ∀ {e}, e.Within S → (step e).Within S) (fuel : Nat)
    (he : e.Within S) : (everywhere E step fuel e).Within S := by
  induction fuel generalizing e with
  | zero => exact he
  | succ fuel ih =>
    unfold everywhere
    dsimp only
    refine hstep ?_
    split
    · exact within_rebuild hE he (List.forall_mem_map.mpr fun c hc => ih (within_children he c hc))
    · exact he

theorem within_expandLoop (hE : E.Keeps S) {fuel : Nat} (he : e.Within S) : (expandLoop E fuel e).Within S := by
  induction fuel generalizing e with
  | zero => exact he
  | succ fuel ih =>
    have hpowers := within_everywhere hE (within_expandMultinomial hE) expandDepth he
    have hproducts := within_everywhere hE (within_expandMul hE) expandDepth hpowers
    have hnext := within_everywhere hE (within_expandLog hE) expandDepth hproducts
    unfold expandLoop
    dsimp only
    split
    · exact he
    · exact ih hnext

theorem within_expandWith (hE : E.Keeps S) (he : e.Within S) : (expandWith E e).Within S := by
  have hlogs := within_everywhere hE (within_expandLog hE) expandDepth he
  have hpowers := within_everywhere hE (within_expandMultinomial hE) expandDepth hlogs
  have hproducts := within_everywhere hE (within_expandMul hE) expandDepth hpowers
  have hbases := within_everywhere hE (within_expandPowerBase hE) expandDepth hproducts
  have hexponents := within_everywhere hE (within_expandPowerExp hE) expandDepth hbases
  unfold expandWith
  simp only [List.foldl_cons, List.foldl_nil]
  exact within_expandLoop hE hexponents

/-! ### The operations, tied together -/

theorem keeps_engineWithin (S : String → Prop) (n : Nat) : (engineWithin n).Keeps S := by
  -- The innermost operations write down their values as they are; each level calls those of the level below.
  induction n with
  | zero => exact .inert
  | succ n ih =>
    rw [engineWithin]
    refine ⟨within_sumWith ih, within_productWith ih, within_powerWith ih, within_applyWith ih _, fun he => ?_⟩
    dsimp only
    exact within_expandWith ih he

/-- The operations on values invent no unknown. -/
theorem keeps_engine (S : String → Prop) : engine.Keeps S :=
  keeps_engineWithin S engineDepth

end AlgebraTutor.Expr
