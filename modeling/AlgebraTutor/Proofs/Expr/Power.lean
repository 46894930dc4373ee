import AlgebraTutor.Expr.Fraction
import AlgebraTutor.Proofs.Expr.Arithmetic

/-!
# Powers and quotients invent no unknowns

A power of values within a set of names is within it, whichever rule works it out, and so are the numerator and the
denominator of a value.
-/

namespace AlgebraTutor.Expr

variable {S : String → Prop} {E : Engine} {b e x y : Expr} {es fs : List Expr}

/-! ### Powers of numbers -/

theorem within_naturalPower (hE : E.Keeps S) (n n' den : Nat) : (naturalPower E n n' den).Within S := by
  unfold naturalPower
  split
  · exact .num _
  · extract_lets primes parts common radicand root roots
    split
    · simp
    · have hroot : root.Within S := by grind
      have hroots : ∀ e ∈ roots, e.Within S := List.forall_mem_map.mpr fun p _ => hE.power (.num _) (.num _)
      refine hE.product ?_
      rw [List.cons_append, List.forall_mem_cons, List.forall_mem_append, List.forall_mem_singleton]
      exact ⟨.num _, hroots, hroot⟩

theorem within_signPower (hE : E.Keeps S) (q : Rat) : (signPower E q).Within S := by
  unfold signPower
  grind

attribute [grind ←] within_naturalPower within_signPower

theorem within_integerPower (hE : E.Keeps S) (n : Int) (q : Rat) : (integerPower E n q).Within S := by
  have hroot := within_naturalPower (S := S) hE n.natAbs q.num.natAbs q.den
  unfold integerPower
  grind

theorem within_fractionPower (hE : E.Keeps S) (q r : Rat) : (fractionPower E q r).Within S := by
  unfold fractionPower
  grind

theorem within_zeroPower (hE : E.Keeps S) (hx : x.Within S) : (zeroPower E x).Within S := by
  unfold zeroPower
  grind

theorem within_unitPower (hE : E.Keeps S) (q : Rat) : (unitPower E q).Within S := by
  unfold unitPower
  grind

/-! ### Powers of other values -/

attribute [grind ←] within_integerPower within_fractionPower within_zeroPower within_unitPower

theorem within_powerSign? (hE : E.Keeps S) (hb : b.Within S) {sign : Rat} (h : powerSign? E b x y = some (sign, e)) :
    e.Within S := by
  have habs := hE.apply (f := .abs) hb
  unfold powerSign? at h
  grind

theorem within_powerOfPower (hE : E.Keeps S) (he : e.Within S) (hy : y.Within S) : (powerOfPower E e y).Within S := by
  have hbase := within_basePower he
  unfold powerOfPower
  split
  rename_i hpower
  rw [hpower] at hbase
  split
  · grind
  · split
    · rename_i hsign
      have hsigned := within_powerSign? hE hbase.1 hsign
      grind
    · grind

/-- All sorted factors of a base are within the set. -/
structure SignedFactors.Within (S : String → Prop) (s : SignedFactors) : Prop where
  nonneg : ∀ f ∈ s.nonneg, f.Within S
  negative : ∀ f ∈ s.negative, f.Within S
  other : ∀ f ∈ s.other, f.Within S

theorem within_signedFactors (h : ∀ f ∈ fs, f.Within S) : (signedFactors fs).Within S := by
  unfold signedFactors
  extract_lets units rest nonneg negative negative' other flipped
  have hnonneg : ∀ f ∈ nonneg, f.Within S := by grind
  have hnegative : ∀ f ∈ negative', f.Within S := by grind
  have hother : ∀ f ∈ other, f.Within S := by grind
  have hflipped : flipped.Within S := by
    have hreverse : ∀ f ∈ negative'.reverse, f.Within S := fun f hf => hnegative f (List.mem_reverse.mp hf)
    unfold flipped
    split
    · exact ⟨hnonneg, by simp, hother⟩
    · exact ⟨by grind, by grind, hother⟩
  split
  · exact ⟨hnonneg, hnegative, hother⟩
  · exact ⟨hnonneg, hnegative, by grind⟩
  · exact hflipped
  · exact ⟨hflipped.nonneg, hflipped.negative, by have := hflipped.other; grind⟩

theorem SignedFactors.Within.free {s : SignedFactors} (h : s.Within S) :
    (∀ f ∈ s.free.1, f.Within S) ∧ ∀ f ∈ s.free.2, f.Within S := by
  obtain ⟨hnonneg, hnegative, hother⟩ := h
  unfold SignedFactors.free
  split
  · exact ⟨hnonneg, hother⟩
  · rename_i n hnegatives
    have hn : n.Within S := hnegative n (by simp [hnegatives])
    split_ifs <;> grind
  · rename_i n ns _ hnegatives
    have hall : n.Within S ∧ ∀ f ∈ ns, f.Within S := List.forall_mem_cons.mp (hnegatives ▸ hnegative)
    have hsplit : ∀ p : Expr × List Expr, p = (if s.other.isEmpty && n.isNum then (n, ns) else (one, n :: ns)) →
        p.1.Within S ∧ ∀ f ∈ p.2, f.Within S := by
      rintro p rfl
      split
      · exact hall
      · exact ⟨within_one, List.forall_mem_cons.mpr hall⟩
    generalize (if s.other.isEmpty && n.isNum then (n, ns) else (one, n :: ns)) = p at hsplit
    obtain ⟨hsign, hrest⟩ := hsplit p rfl
    refine ⟨List.forall_mem_append.mpr ⟨hnonneg, List.forall_mem_map.mpr fun f hf => within_neg (hrest f hf)⟩, ?_⟩
    dsimp only
    grind

theorem within_splitBase (hE : E.Keeps S) (h : ∀ f ∈ fs, f.Within S) (hx : x.Within S) : (splitBase E fs x).Within S := by
  have hfree := (within_signedFactors h).free
  unfold splitBase
  revert hfree
  obtain ⟨free, stay⟩ := (signedFactors fs).free
  rintro ⟨hfree, hstay⟩
  dsimp -zeta only
  extract_lets isRoot outside
  have houtside : ∀ f ∈ outside, f.Within S := by
    unfold outside
    grind
  have hstayed : (pow (E.product stay) x).Within S := .pow (hE.product hstay) hx
  split_ifs
  · exact hE.product houtside
  · exact hstayed
  · exact hE.product (List.forall_mem_append.mpr ⟨houtside, List.forall_mem_singleton.mpr hstayed⟩)

theorem within_logarithmExponent? (hE : E.Keeps S) (hx : x.Within S) (h : logarithmExponent? E b x = some e) :
    e.Within S := by
  unfold logarithmExponent? at h
  extract_lets target freed at h
  have hfreed {e r : Expr} (he : e.Within S) (h : freed e = some r) : r.Within S := by
    unfold freed at h
    dsimp only at h
    split at h
    · split at h
      · obtain rfl := Option.some.inj h
        exact hE.product fun f hf => within_factors he f (List.mem_filter.mp hf).1
      · simp at h
    · simp at h
  split at h
  · extract_lets found at h
    split at h
    · obtain rfl := Option.some.inj h
      refine hE.sum fun f hf => ?_
      obtain ⟨t, ht, hterm⟩ := List.mem_filterMap.mp hf
      exact hfreed (within_add.mp hx t ht) hterm
    · simp at h
  · exact hfreed hx h

theorem within_powerOf (hE : E.Keeps S) (hb : b.Within S) (hx : x.Within S) : (powerOf E b x).Within S := by
  have hpower : (pow b x).Within S := .pow hb hx
  unfold powerOf
  split
  · split
    · split_ifs <;> simp [within_integerPower hE, within_fractionPower hE]
    · split_ifs
      · exact within_zeroPower hE hx
      · exact hpower
  · split
    · split_ifs <;> simp
    · exact hpower
  · exact hE.apply hx
  · split
    · exact within_unitPower hE _
    · exact hpower
  · exact within_powerOfPower hE hb hx
  · exact within_powerOfPower hE hb hx
  · split
    · split_ifs
      · refine within_productOfMany hE (List.forall_mem_singleton.mpr (hE.product (List.forall_mem_map.mpr fun f hf => ?_)))
        exact .pow (within_mul.mp hb f hf) hx
      · exact within_splitBase hE (within_mul.mp hb) hx
    · exact hpower
  · split
    · split_ifs
      · exact .mul (by simpa using hE.sum_pair (.num _) (hE.product_pair (.num _) within_i))
      · exact hpower
    · exact hpower
  · split
    · have hbase := within_fn.mp hb
      split_ifs
      · exact hE.power hbase hx
      · exact hpower
      · exact hE.product_pair (hE.power hbase (.num _)) hb
      · exact hpower
    · exact hpower
  · exact hpower

theorem within_powerWith (hE : E.Keeps S) (hb : b.Within S) (hx : x.Within S) : (powerWith E b x).Within S := by
  have hsigned := hE.power (within_neg hb) hx
  have hplain := within_powerOf hE hb hx
  have hlogarithm {y : Expr} (hy : logarithmExponent? E b x = some y) : (E.apply .exp y).Within S :=
    hE.apply (within_logarithmExponent? hE hx hy)
  unfold powerWith
  grind

/-! ### Numerators and denominators -/

theorem within_primitive (h : ∀ t ∈ es, t.Within S) : ∀ t ∈ (primitive es).2, t.Within S := by
  unfold primitive
  extract_lets coefficients numerator denominator
  split
  · exact h
  · dsimp only
    intro t ht
    obtain ⟨u, hu, rfl⟩ := List.mem_map.mp (mem_sort.mp ht)
    have hpart := within_coefficient (h u hu)
    grind

theorem within_numerDenom_pow (hE : E.Keeps S) {fuel : Nat}
    (ih : ∀ {e}, e.Within S → (numerDenom E fuel e).1.Within S ∧ (numerDenom E fuel e).2.Within S)
    (he : (pow b x).Within S) :
    (numerDenom E (fuel + 1) (pow b x)).1.Within S ∧ (numerDenom E (fuel + 1) (pow b x)).2.Within S := by
  have hbase := within_basePower he
  unfold numerDenom
  revert hbase
  obtain ⟨b, x⟩ := basePower _
  rintro ⟨hb, hx⟩
  have hfraction := ih hb
  revert hfraction
  dsimp only at hb hx ⊢
  obtain ⟨n, d⟩ := numerDenom E fuel b
  rintro ⟨hn, hd⟩
  dsimp only at hn hd
  have hone : one.Within S := within_one
  have hxNeg := within_neg hx
  have hnNeg := within_neg hn
  have hdNeg := within_neg hd
  split_ifs <;> exact ⟨hE.power (by assumption) (by assumption), hE.power (by assumption) (by assumption)⟩

theorem within_numerDenom_add (hE : E.Keeps S) {fuel : Nat}
    (ih : ∀ {es}, (∀ e ∈ es, e.Within S) → PowersWithin S (numerDenoms E fuel es)) (h : ∀ t ∈ es, t.Within S) :
    (numerDenom E (fuel + 1) (add es)).1.Within S ∧ (numerDenom E (fuel + 1) (add es)).2.Within S := by
  have hts := within_primitive h
  rw [numerDenom]
  generalize primitive es = divided at hts
  obtain ⟨content, ts⟩ := divided
  dsimp -zeta only at hts ⊢
  extract_lets parts denominators
  have hparts : PowersWithin S parts := ih hts
  have hdenominators : ∀ d ∈ denominators, d.Within S := by
    intro d hd
    obtain ⟨p, hp, rfl⟩ := List.mem_map.mp (mem_sort.mp (mem_of_mem_dedup hd))
    exact (hparts p hp).2
  clear_value denominators
  split
  · rename_i d
    have hd : d.Within S := hdenominators d (List.mem_singleton_self d)
    exact ⟨hE.sum (List.forall_mem_map.mpr fun p hp => hE.keepCoefficient _ (hparts p hp).1), hE.keepCoefficient _ hd⟩
  · extract_lets numerators crossed
    have hnumerators : ∀ n ∈ numerators, n.Within S := by
      refine List.forall_mem_map.mpr fun d _ => hE.sum fun e he => ?_
      obtain ⟨p, hp, hnumerator⟩ := List.mem_filterMap.mp he
      grind [PowersWithin]
    have hcrossed : ∀ e ∈ crossed, e.Within S := by
      refine List.forall_mem_map.mpr fun q hq => hE.product (List.forall_mem_cons.mpr ⟨?_, fun d hd => ?_⟩)
      · exact hnumerators q.2 (List.of_mem_zip hq).2
      · exact hdenominators d (List.mem_filter.mp hd).1
    exact ⟨hE.keepCoefficient _ (hE.sum hcrossed), hE.keepCoefficient _ (hE.product hdenominators)⟩

/-- The numerator and the denominator of a value are within the set, and so are those of several values. -/
theorem within_numerDenom (hE : E.Keeps S) (fuel : Nat) :
    (∀ {e}, e.Within S → (numerDenom E fuel e).1.Within S ∧ (numerDenom E fuel e).2.Within S) ∧
      ∀ {es}, (∀ e ∈ es, e.Within S) → PowersWithin S (numerDenoms E fuel es) := by
  induction fuel with
  | zero =>
    constructor
    · intro e he
      simpa [numerDenom] using he
    · intro es hes
      simpa [numerDenoms, PowersWithin] using hes
  | succ fuel ih =>
    constructor
    · intro e he
      cases e with
      | num q => exact ⟨.num _, .num _⟩
      | pow b x => exact within_numerDenom_pow hE ih.1 he
      | add ts => exact within_numerDenom_add hE ih.2 (within_add.mp he)
      | mul fs =>
        have hparts := ih.2 (within_mul.mp he)
        exact ⟨hE.product (List.forall_mem_map.mpr fun p hp => (hparts p hp).1),
          hE.product (List.forall_mem_map.mpr fun p hp => (hparts p hp).2)⟩
      | fn f x =>
        cases f with
        | exp =>
          rw [numerDenom]
          split
          · exact ⟨within_one, hE.apply (within_neg (within_fn.mp he))⟩
          · exact ⟨he, within_one⟩
        | _ => exact ⟨he, within_one⟩
      | infinite | indeterminate | named | symbol => exact ⟨he, within_one⟩
    · intro es hes
      exact List.forall_mem_map.mpr fun e he => ih.1 (hes e he)

theorem within_asFraction (hE : E.Keeps S) (he : e.Within S) :
    (asFraction E e).1.Within S ∧ (asFraction E e).2.Within S :=
  (within_numerDenom hE fractionDepth).1 he

theorem within_splitFactor (hE : E.Keeps S) (he : e.Within S) :
    (∀ f ∈ (splitFactor E e).1, f.Within S) ∧ ∀ f ∈ (splitFactor E e).2, f.Within S := by
  have hbase := within_basePower he
  have hinverse := hE.power hbase.1 (within_neg hbase.2)
  have hfraction := within_asFraction hE he
  unfold splitFactor
  split
  · constructor <;> dsimp only <;> split <;> simp
  · dsimp only
    split_ifs <;> simp [hinverse, he, hfraction]
  · dsimp only
    split_ifs <;> simp [hinverse, he, hfraction]
  · simpa using he

theorem within_shallowFraction (hE : E.Keeps S) (he : e.Within S) :
    (shallowFraction E e).1.Within S ∧ (shallowFraction E e).2.Within S := by
  unfold shallowFraction
  dsimp only
  constructor
  · refine hE.product fun f hf => ?_
    simp only [List.mem_flatMap, List.mem_map] at hf
    obtain ⟨_, ⟨g, hg, rfl⟩, hf⟩ := hf
    exact (within_splitFactor hE (within_factors he g hg)).1 f hf
  · refine hE.product fun f hf => ?_
    simp only [List.mem_flatMap, List.mem_map] at hf
    obtain ⟨_, ⟨g, hg, rfl⟩, hf⟩ := hf
    exact (within_splitFactor hE (within_factors he g hg)).2 f hf

end AlgebraTutor.Expr
