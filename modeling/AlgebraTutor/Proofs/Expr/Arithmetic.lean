import Mathlib.Data.Nat.Init
import AlgebraTutor.Expr.Product
import AlgebraTutor.Proofs.Expr.Within

/-!
# Arithmetic invents no unknowns

Sums and products of values within a set of names are within it, whatever is collected, joined or taken apart on the way, if
the operations that they call keep within the set.
-/

namespace AlgebraTutor.Expr

variable {S : String → Prop} {E : Engine} {b e x : Expr} {es : List Expr}

/-! ### Sums -/

theorem within_termsBelow (hE : E.Keeps S) (h : ∀ e ∈ es, e.Within S) : ∀ t ∈ termsBelow E es, t.Within S := by
  intro t ht
  simp only [termsBelow, List.mem_flatMap, List.mem_map] at ht
  obtain ⟨e, he, _, ⟨u, hu, rfl⟩, ht⟩ := ht
  have hu := within_terms (h e he) u hu
  refine within_terms ?_ t ht
  split
  · split
    · exact hE.power (within_pow.mp hu).1 (within_pow.mp hu).2
    · exact hu
  · exact hu

theorem within_collectShares {shares : List Share} (h : ∀ s ∈ shares, s.part.Within S) :
    ∀ s ∈ collectShares shares, s.part.Within S := by
  induction shares with
  | nil => exact h
  | cons s rest ih =>
    have hrest := ih fun r hr => h r (List.mem_cons_of_mem s hr)
    unfold collectShares
    grind

theorem within_collect {shares : List Share} (h : ∀ s ∈ shares, s.part.Within S) : ∀ s ∈ collect shares, s.part.Within S :=
  within_collectShares fun s hs => h s (List.mem_mergeSort.mp hs)

theorem within_term? {s : Share} (h : s.part.Within S) (he : s.term? = some e) : e.Within S := by
  unfold Share.term? at he
  grind

theorem within_sumWith (hE : E.Keeps S) (h : ∀ e ∈ es, e.Within S) : (sumWith E es).Within S := by
  have hbelow := within_termsBelow hE h
  unfold sumWith
  extract_lets ts infinities number shares kept
  have hshares : ∀ s ∈ shares, s.part.Within S := by
    intro s hs
    obtain ⟨t, ht, hshare⟩ := List.mem_filterMap.mp hs
    grind
  have hkept : ∀ t ∈ kept, t.Within S := by
    intro t ht
    obtain ⟨s, hs, hterm⟩ := List.mem_filterMap.mp ht
    exact within_term? (within_collect hshares s hs) hterm
  split_ifs
  · exact .indeterminate
  · exact .indeterminate
  · exact within_rawAdd (by simp; grind)
  · exact within_rawAdd (by simp; grind)
  · exact within_rawAdd (by simp; grind)

/-! ### Products -/

/-- The bases and the exponents of powers are within the set. -/
def PowersWithin (S : String → Prop) (powers : List (Expr × Expr)) : Prop :=
  ∀ p ∈ powers, p.1.Within S ∧ p.2.Within S

theorem PowersWithin.append {powers : List (Expr × Expr)} (h : PowersWithin S powers) (hb : b.Within S) (hx : x.Within S) :
    PowersWithin S (powers ++ [(b, x)]) :=
  List.forall_mem_append.mpr ⟨h, List.forall_mem_singleton.mpr ⟨hb, hx⟩⟩

/-- The powers among sorted factors are within the set. -/
structure Factors.Within (S : String → Prop) (acc : Factors) : Prop where
  powers : PowersWithin S acc.powers
  numberPowers : PowersWithin S acc.numberPowers

theorem Factors.within_insert (hE : E.Keeps S) {fuel : Nat} {acc : Factors} (hacc : acc.Within S) (he : e.Within S) :
    (Factors.insert E fuel acc e).Within S := by
  induction fuel generalizing acc e with
  | zero => exact hacc
  | succ fuel ih =>
    unfold Factors.insert
    split
    · rename_i fs
      exact List.foldlRecOn fs _ hacc fun acc hacc f hf => ih hacc (within_mul.mp he f hf)
    · exact ⟨hacc.powers, hacc.numberPowers⟩
    · exact ⟨hacc.powers, hacc.numberPowers⟩
    · exact ⟨hacc.powers, hacc.numberPowers⟩
    · exact ⟨hacc.powers, hacc.numberPowers⟩
    · have hbase := within_basePower he
      split
      · split_ifs
        · exact ⟨hacc.powers, hacc.numberPowers⟩
        · exact ⟨hacc.powers, hacc.numberPowers⟩
        · exact ih hacc (hE.power (.num _) (.num _))
        all_goals
          dsimp only
          split <;> exact ⟨hacc.powers, hacc.numberPowers⟩
      · rename_i hpower
        rw [hpower] at hbase
        split_ifs
        · exact ⟨hacc.powers, hacc.numberPowers.append hbase.1 hbase.2⟩
        · exact ⟨hacc.powers.append hbase.1 hbase.2, hacc.numberPowers⟩
      · rename_i hpower
        rw [hpower] at hbase
        exact ⟨hacc.powers.append hbase.1 hbase.2, hacc.numberPowers⟩
    · exact ⟨hacc.powers.append (within_basePower he).1 (within_basePower he).2, hacc.numberPowers⟩

theorem within_joinShares {shares : List PowerShare} (h : ∀ s ∈ shares, s.base.Within S ∧ s.tail.Within S) :
    ∀ s ∈ joinShares shares, s.base.Within S ∧ s.tail.Within S := by
  induction shares with
  | nil => exact h
  | cons s rest ih =>
    have hrest := ih fun r hr => h r (List.mem_cons_of_mem s hr)
    unfold joinShares
    grind

theorem within_gather (hE : E.Keeps S) {powers : List (Expr × Expr)} (h : PowersWithin S powers) :
    PowersWithin S (gather E powers) := by
  refine List.forall_mem_map.mpr fun s hs => ?_
  have hshare := within_joinShares (S := S) (fun r hr => ?_) s hs
  · exact ⟨hshare.1, hE.product_pair (.num _) hshare.2⟩
  · obtain ⟨p, hp, rfl⟩ := List.mem_map.mp (List.mem_mergeSort.mp hr)
    exact ⟨(h p hp).1, within_coefficient (h p hp).2⟩

/-- The factors and the powers worked out are within the set. -/
structure WorkedPowers.Within (S : String → Prop) (acc : WorkedPowers) : Prop where
  factors : ∀ f ∈ acc.factors, f.Within S
  powers : PowersWithin S acc.powers

theorem WorkedPowers.within_general (hE : E.Keeps S) {acc : WorkedPowers} (hacc : acc.Within S) (hb : b.Within S)
    (hx : x.Within S) : (WorkedPowers.step.general E acc b x).Within S := by
  have hpower := hE.power hb hx
  have hbase := within_basePower hpower
  unfold WorkedPowers.step.general
  refine ⟨List.forall_mem_append.mpr ⟨hacc.factors, List.forall_mem_singleton.mpr hpower⟩, ?_⟩
  dsimp only
  split
  · exact hacc.powers.append hb hx
  · exact hacc.powers.append hbase.1 hbase.2
  · exact hacc.powers.append hb hx

theorem WorkedPowers.within_step (hE : E.Keeps S) {acc : WorkedPowers} (hacc : acc.Within S) {p : Expr × Expr}
    (hp : p.1.Within S ∧ p.2.Within S) : (WorkedPowers.step E acc p).Within S := by
  obtain ⟨b, x⟩ := p
  unfold WorkedPowers.step
  dsimp only
  split
  · split_ifs
    · exact ⟨hacc.factors, hacc.powers⟩
    · split
      · exact ⟨hacc.factors, hacc.powers⟩
      · exact ⟨List.forall_mem_append.mpr ⟨hacc.factors, List.forall_mem_singleton.mpr hp.1⟩, hacc.powers.append hp.1 hp.2⟩
    · exact within_general hE hacc hp.1 hp.2
  · exact within_general hE hacc hp.1 hp.2

theorem within_workPowers (hE : E.Keeps S) {powers : List (Expr × Expr)} (h : PowersWithin S powers) (number : Rat)
    (fuel : Nat) : (workPowers E powers number fuel).Within S := by
  have hworked {powers : List (Expr × Expr)} (h : PowersWithin S powers) (number : Rat) :
      (powers.foldl (WorkedPowers.step E) ⟨number, false, [], [], false⟩).Within S :=
    List.foldlRecOn powers _ ⟨by simp, by simp [PowersWithin]⟩ fun acc hacc p hp => WorkedPowers.within_step hE hacc (h p hp)
  induction fuel generalizing powers number with
  | zero => exact hworked h number
  | succ fuel ih =>
    rw [workPowers]
    split
    · exact ih (within_gather hE (hworked h number).powers) _
    · exact hworked h number

theorem within_joinBases (hE : E.Keeps S) {powers : List (Expr × Expr)} (h : PowersWithin S powers) :
    ∀ e ∈ joinBases E powers, e.Within S := by
  intro e he
  obtain ⟨x, hx, hvalue⟩ := List.mem_filterMap.mp he
  have hx : x ∈ powers.map (·.2) := mem_sort.mp (mem_of_mem_dedup hx)
  obtain ⟨p, hp, rfl⟩ := List.mem_map.mp hx
  split at hvalue
  · simp at hvalue
  · obtain rfl := Option.some.inj hvalue
    refine hE.power (hE.product fun b hb => ?_) (h p hp).2
    obtain ⟨q, hq, hbase⟩ := List.mem_filterMap.mp hb
    grind [PowersWithin]

theorem within_reduceRadicals (hE : E.Keeps S) {fuel : Nat} {radicals : List (Rat × Rat)} :
    ∀ e ∈ (reduceRadicals E fuel radicals).2.2, e.Within S := by
  induction fuel generalizing radicals with
  | zero => simp [reduceRadicals]
  | succ fuel ih =>
    cases radicals with
    | nil => simp [reduceRadicals]
    | cons r rest =>
      rw [reduceRadicals]
      dsimp only
      split_ifs
      · exact ih
      · exact ih
      · refine List.foldlRecOn (motive := fun (acc : Rat × List (Rat × Rat) × List Expr) => ∀ e ∈ acc.2.2, e.Within S)
          _ _ ih fun acc hacc f hf => ?_
        have hf := within_factors (hE.power (.num _) (.num _)) f hf
        split
        · exact hacc
        · exact hacc
        · exact List.forall_mem_cons.mpr ⟨hf, hacc⟩

theorem within_workRadicals (hE : E.Keeps S) (radicals : List (Rat × Rat)) :
    ∀ e ∈ (workRadicals E radicals).2.2, e.Within S :=
  within_reduceRadicals hE

theorem within_workSign (exponent : Rat) (roots : List (Rat × Rat)) : ∀ e ∈ (workSign exponent roots).2.2, e.Within S := by
  unfold workSign
  grind

theorem within_spread (hE : E.Keeps S) (c : Rat) (h : ∀ t ∈ es, t.Within S) : (spread E c es).Within S := by
  refine hE.sum (List.forall_mem_map.mpr fun t ht => ?_)
  have hpart := within_coefficient (h t ht)
  grind

theorem within_numberTimes (hE : E.Keeps S) (c : Rat) (h : ∀ f ∈ es, f.Within S) : (numberTimes E c es).Within S := by
  unfold numberTimes
  split_ifs
  · exact within_rawMul h
  · split
    · exact .num c
    · exact within_spread hE c (by simpa using h)
    · simpa using h

theorem within_productOfMany (hE : E.Keeps S) (h : ∀ e ∈ es, e.Within S) : (productOfMany E es).Within S := by
  unfold productOfMany
  extract_lets acc worked combined
  have hacc : acc.Within S :=
    List.foldlRecOn es _ ⟨by simp [Factors.empty, PowersWithin], by simp [Factors.empty, PowersWithin]⟩
      fun acc hacc f hf => Factors.within_insert hE hacc (h f hf)
  have hworked : worked.Within S := within_workPowers hE (within_gather hE hacc.powers) acc.number 1
  have hcombined : ∀ e ∈ combined, e.Within S := within_joinBases hE (within_gather hE hacc.numberPowers)
  have hothers := within_workRadicals hE acc.radicals
  split_ifs
  · exact .indeterminate
  · exact .indeterminate
  · exact .indeterminate
  revert hothers
  obtain ⟨n, roots, others⟩ := workRadicals E acc.radicals
  intro hothers
  have hunits := within_workSign (S := S) acc.signExponent roots
  revert hunits
  dsimp -zeta only
  obtain ⟨sign, roots, units⟩ := workSign acc.signExponent roots
  intro hunits
  dsimp -zeta only
  extract_lets radicals parts inf number rest
  have hparts : ∀ e ∈ parts, e.Within S := by
    have hradicals : ∀ e ∈ radicals, e.Within S := List.forall_mem_map.mpr fun r _ => hE.power (.num _) (.num _)
    simp only [parts, List.forall_mem_append]
    exact ⟨⟨⟨⟨hworked.factors, hcombined⟩, hothers⟩, hunits⟩, hradicals⟩
  have hrest : ∀ e ∈ rest, e.Within S := fun e he => hparts e (by grind)
  split_ifs
  · exact .indeterminate
  · exact .indeterminate
  · exact within_rawMul (by simp; grind)
  · exact within_zero
  · exact within_numberTimes hE _ hrest

theorem within_productWith (hE : E.Keeps S) (h : ∀ e ∈ es, e.Within S) : (productWith E es).Within S := by
  have hnontrivial : ∀ e ∈ es.filter (fun e => !(e == one)), e.Within S := fun e he => h e (List.mem_filter.mp he).1
  have hscaled (q : Rat) {e : Expr} (he : e.Within S) : (numberTimes E q e.coefficient.2.factors).Within S :=
    within_numberTimes hE q (within_factors (within_coefficient he))
  unfold productWith
  split
  · exact within_one
  · simp_all
  · exact .num _
  · split
    · exact within_productOfMany hE (by simp_all)
    · exact hscaled _ (by simp_all)
  · split
    · exact within_productOfMany hE (by simp_all)
    · exact hscaled _ (by simp_all)
  · exact within_productOfMany hE hnontrivial

end AlgebraTutor.Expr
