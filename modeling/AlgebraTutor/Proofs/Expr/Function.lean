import AlgebraTutor.Expr.Function
import AlgebraTutor.Proofs.Expr.Power

/-!
# Functions invent no unknowns

The value of a function at a value within a set of names is within it, whether the function is worked out or kept.
-/

namespace AlgebraTutor.Expr

variable {S : String → Prop} {E : Engine} {b e r x y : Expr} {es ts : List Expr}

theorem within_withoutFactor? (he : e.Within S) (h : withoutFactor? b e = some r) : r.Within S := by
  unfold withoutFactor? at h
  grind

theorem within_imaginaryPart? (he : e.Within S) (h : imaginaryPart? e = some r) : r.Within S := by
  unfold imaginaryPart? at h
  grind [within_withoutFactor?]

theorem within_peelHalfTurns (hE : E.Keeps S) (h : ∀ t ∈ ts, t.Within S) : (peelHalfTurns E ts).1.Within S := by
  unfold peelHalfTurns
  grind

/-! ### Exponential and logarithm -/

theorem within_expOfProduct (hE : E.Keeps S) (hx : x.Within S) : (expOfProduct E x).Within S := by
  have hfactors := within_factors hx
  have hkept : (fn .exp x).Within S := .fn hx
  unfold expOfProduct
  split
  · grind
  · extract_lets isLog
    split
    · rename_i a hlog
      have ha : a.Within S := by
        have hmem : fn .log a ∈ x.factors.filter isLog := by simp [hlog]
        exact within_fn.mp (hfactors _ (List.mem_filter.mp hmem).1)
      split
      · exact hE.power ha (hE.product fun f hf => hfactors f (List.mem_filter.mp hf).1)
      · exact hkept
    · exact hkept

theorem within_expOfSum (hE : E.Keeps S) (h : ∀ t ∈ ts, t.Within S) : (expOfSum E ts).Within S := by
  unfold expOfSum
  extract_lets parts outside inside
  have hparts : ∀ p ∈ parts, p.1.Within S ∧ ∀ v, p.2 = some v → v.Within S := by
    refine List.forall_mem_map.mpr fun t ht => ?_
    have hvalue := hE.apply (f := .exp) (h t ht)
    grind
  clear_value parts
  have houtside : ∀ v ∈ outside, v.Within S := by grind
  have hinside : ∀ v ∈ inside, v.Within S := by grind
  split
  · exact .fn (.add h)
  · exact hE.product_pair (hE.product houtside) (.fn (hE.sum hinside))

theorem within_expOf (hE : E.Keeps S) (hx : x.Within S) : (expOf E x).Within S := by
  unfold expOf
  grind [within_expOfProduct, within_expOfSum]

theorem within_logOf (hE : E.Keeps S) (hx : x.Within S) : (logOf E x).Within S := by
  unfold logOf
  extract_lets known otherwise
  have hother {x : Expr} (hx : x.Within S) : (otherwise x).Within S := by
    unfold otherwise
    grind
  clear_value otherwise
  grind

theorem within_logOfBase (hE : E.Keeps S) (hx : x.Within S) (hb : b.Within S) : (logOfBase E x b).Within S := by
  unfold logOfBase
  grind

/-! ### Trigonometric and hyperbolic functions -/

@[grind ←]
theorem within_angle (hE : E.Keeps S) (q : Rat) : (angle E q).Within S :=
  hE.product_pair (.num q) within_pi

theorem within_cosOfAngle (hE : E.Keeps S) (q : Rat) (hx : x.Within S) : (cosOfAngle E q x).Within S := by
  have hcos (q : Rat) : (E.apply .cos (angle E q)).Within S := hE.apply (within_angle hE q)
  have hneg (q : Rat) := within_neg (hcos q)
  unfold cosOfAngle
  extract_lets q' p
  split
  · exact .num _
  split
  · exact within_zero
  split
  · exact hneg _
  split
  · exact hneg _
  split
  · exact hE.sum_pair (hE.product_pair (hcos _) (hcos _)) (hE.product_pair (hcos _) (hcos _))
  · grind

theorem within_cosOf (hE : E.Keeps S) (hx : x.Within S) : (cosOf E x).Within S := by
  unfold cosOf
  split
  · exact within_one
  split
  · exact .indeterminate
  split
  · exact hE.apply (within_neg hx)
  split
  · exact hE.apply (within_imaginaryPart? hx ‹_›)
  split
  · exact within_cosOfAngle hE _ hx
  split
  · have hrest := within_peelHalfTurns hE (within_add.mp hx)
    have hturned (f g : Func) (q : Rat) := hE.product_pair (hE.apply (f := f) (within_angle hE q)) (hE.apply (f := g) hrest)
    dsimp only
    split
    · exact .fn hx
    · exact hE.difference (hturned ..) (hturned ..)
  · exact .fn hx

theorem within_sinOfAngle (hE : E.Keeps S) (q : Rat) (hx : x.Within S) : (sinOfAngle E q x).Within S := by
  unfold sinOfAngle
  grind

theorem within_sinOf (hE : E.Keeps S) (hx : x.Within S) : (sinOf E x).Within S := by
  unfold sinOf
  split
  · exact within_zero
  split
  · exact .indeterminate
  split
  · exact within_neg (hE.apply (within_neg hx))
  split
  · exact hE.product_pair within_i (hE.apply (within_imaginaryPart? hx ‹_›))
  split
  · exact within_sinOfAngle hE _ hx
  split
  · have hrest := within_peelHalfTurns hE (within_add.mp hx)
    have hturned (f g : Func) (q : Rat) := hE.product_pair (hE.apply (f := f) (within_angle hE q)) (hE.apply (f := g) hrest)
    dsimp only
    split
    · exact .fn hx
    · exact hE.sum_pair (hturned ..) (hturned ..)
  · exact .fn hx

theorem within_tanOfTenth (hE : E.Keeps S) (n : Int) : (tanOfTenth E n).Within S := by
  unfold tanOfTenth
  grind

theorem within_tanOfAngle (hE : E.Keeps S) (q : Rat) (hx : x.Within S) : (tanOfAngle E q x).Within S := by
  unfold tanOfAngle
  extract_lets r n double c2 s2 near c s
  have hdouble : double.Within S := within_angle hE _
  have hc2 : c2.Within S := hE.apply hdouble
  have hs2 : s2.Within S := hE.apply (hE.sum_pair hdouble (within_angle hE _))
  have hc : c.Within S := hE.apply (within_angle hE _)
  have hs : s.Within S := hE.apply (hE.sum_pair (within_angle hE _) (within_angle hE _))
  have htan (q : Rat) : (E.apply .tan (angle E q)).Within S := hE.apply (within_angle hE q)
  have htenth (n : Int) := within_tanOfTenth (S := S) hE n
  clear_value c2 s2 c s
  split
  · exact within_zero
  split
  · split
    · exact within_neg (htenth _)
    · exact htenth _
  split
  · split
    · exact .infinite
    · exact hE.difference (hE.power hs2 within_minusOne) (hE.quotient hc2 hs2)
  split
  · exact hE.quotient (hE.difference (htan _) (htan _)) (hE.sum_pair within_one (hE.product_pair (htan _) (htan _)))
  · grind

theorem within_tanOf (hE : E.Keeps S) (hx : x.Within S) : (tanOf E x).Within S := by
  unfold tanOf
  grind [within_imaginaryPart?, within_tanOfAngle, within_peelHalfTurns]

theorem within_cotOf (hE : E.Keeps S) (hx : x.Within S) : (cotOf E x).Within S := by
  unfold cotOf
  grind

theorem within_hyperbolicOf (hE : E.Keeps S) (f : Func) (hx : x.Within S) : (hyperbolicOf E f x).Within S := by
  unfold hyperbolicOf
  grind [within_imaginaryPart?]

/-! ### Parts and absolute values of complex numbers -/

theorem within_reOf (hE : E.Keeps S) (hx : x.Within S) : (reOf E x).Within S := by
  unfold reOf
  split
  · exact .indeterminate
  · refine hE.sum (List.forall_mem_map.mpr fun t ht => ?_)
    have ht := within_terms hx t ht
    have hpart := within_coefficient ht
    grind [within_imaginaryPart?]

theorem within_imOf (hE : E.Keeps S) (hx : x.Within S) : (imOf E x).Within S := by
  unfold imOf
  split
  · exact .indeterminate
  · refine hE.sum (List.forall_mem_map.mpr fun t ht => ?_)
    have ht := within_terms hx t ht
    have hpart := within_coefficient ht
    grind [within_imaginaryPart?]

theorem within_settleSigns (hE : E.Keeps S) (fuel : Nat) :
    (∀ {e}, e.Within S → (settleSigns E fuel e).Within S) ∧
      ∀ {es}, (∀ e ∈ es, e.Within S) → ∀ e ∈ settleAll E fuel es, e.Within S := by
  induction fuel with
  | zero => exact ⟨fun he => by simpa [settleSigns] using he, fun hes => by simpa [settleAll] using hes⟩
  | succ fuel ih =>
    obtain ⟨ihOne, ihAll⟩ := ih
    refine ⟨fun he => ?_, fun hes => List.forall_mem_map.mpr fun e he => ihOne (hes e he)⟩
    unfold settleSigns
    split
    · have hneg := within_neg he
      grind
    · exact hE.product (ihAll (within_mul.mp he))
    · obtain ⟨hb, hx⟩ := within_pow.mp he
      split
      · exact hE.power (ihOne hb) hx
      · exact he
    · exact he

theorem within_conjugate (hE : E.Keeps S) (fuel : Nat) :
    (∀ {e}, e.Within S → (conjugate E fuel e).Within S) ∧
      ∀ {es}, (∀ e ∈ es, e.Within S) → ∀ e ∈ conjugateAll E fuel es, e.Within S := by
  induction fuel with
  | zero => exact ⟨fun he => by simpa [conjugate] using he, fun hes => by simpa [conjugateAll] using hes⟩
  | succ fuel ih =>
    obtain ⟨ihOne, ihAll⟩ := ih
    refine ⟨fun he => ?_, fun hes => List.forall_mem_map.mpr fun e he => ihOne (hes e he)⟩
    unfold conjugate
    split
    · exact within_neg within_i
    · exact hE.sum (ihAll (within_add.mp he))
    · exact hE.product (ihAll (within_mul.mp he))
    · obtain ⟨hb, hx⟩ := within_pow.mp he
      split_ifs
      · exact hE.power hb (within_neg hx)
      · exact hE.product_pair (hE.power hb hx) (hE.power within_minusOne (hE.product_pair (.num _) hx))
      · exact he
    · obtain ⟨hb, hx⟩ := within_pow.mp he
      split
      · exact hE.power (ihOne hb) hx
      · exact he
    · exact hE.apply (ihOne (within_fn.mp he))
    · exact he

theorem within_absOfFactor (hE : E.Keeps S) (he : e.Within S) (h : absOfFactor E e = some r) : r.Within S := by
  have habs := hE.apply (f := .abs) he
  unfold absOfFactor absOfFactor.known at h
  grind

theorem within_absOfAtom (hE : E.Keeps S) (hx : x.Within S) : (absOfAtom E x).Within S := by
  have hconjugate := (within_conjugate hE 50).1 hx
  unfold absOfAtom
  grind [within_imaginaryPart?]

theorem within_absOf (hE : E.Keeps S) (hx : x.Within S) : (absOf E x).Within S := by
  unfold absOf
  split
  · exact .num _
  · exact .infinite
  · exact .indeterminate
  · exact within_one
  · exact hx
  · have hsettled := (within_settleSigns hE 50).1 hx
    generalize settleSigns E 50 _ = x at hsettled
    have hfraction := within_asFraction hE hsettled
    have habs {e : Expr} (he : e.Within S) := hE.apply (f := .abs) he
    have hre {e : Expr} (he : e.Within S) := hE.apply (f := .re) he
    have himaginary {e : Expr} (he : e.Within S) := hE.apply (f := .im) he
    dsimp only
    split
    · exact hE.quotient (habs hfraction.1) (habs hfraction.2)
    split
    · have hfactors := within_mul.mp hsettled
      have houtside : ∀ f ∈ List.filterMap (absOfFactor E) _, f.Within S := fun f hf => by
        obtain ⟨g, hg, hvalue⟩ := List.mem_filterMap.mp hf
        exact within_absOfFactor hE (hfactors g hg) hvalue
      split
      · exact hE.product houtside
      · exact hE.product_pair (hE.product houtside) (.fn (hE.product fun f hf => hfactors f (List.mem_filter.mp hf).1))
    · have hbase := within_basePower hsettled
      split
      · split
        · split
          · split_ifs
            · exact hsettled
            · exact within_one
            · exact hE.power (habs hbase.1) hbase.2
          · exact .fn hsettled
        · split_ifs
          · exact hE.power hbase.1 (hre hbase.2)
          · exact hE.product_pair (hE.power (within_neg hbase.1) (hre hbase.2))
              (hE.apply (hE.product (by simp [himaginary hbase.2])))
          · exact .fn hsettled
      · exact within_absOfAtom hE hsettled
    · exact hE.apply (hre (within_fn.mp hsettled))
    · exact within_absOfAtom hE hsettled

theorem within_applyWith (hE : E.Keeps S) (f : Func) (hx : x.Within S) : (applyWith E f x).Within S := by
  unfold applyWith
  split
  · exact .indeterminate
  · cases f with
    | exp => exact within_expOf hE hx
    | log => exact within_logOf hE hx
    | sin => exact within_sinOf hE hx
    | cos => exact within_cosOf hE hx
    | tan => exact within_tanOf hE hx
    | cot => exact within_cotOf hE hx
    | sinh | cosh | tanh => exact within_hyperbolicOf hE _ hx
    | re => exact within_reOf hE hx
    | im => exact within_imOf hE hx
    | abs => exact within_absOf hE hx

end AlgebraTutor.Expr
