import AlgebraTutor.Proofs.Pattern.Decimals
import AlgebraTutor.Proofs.Tree.Products

/-!
# Quotients with a finite decimal

A number has a reciprocal with finitely many decimals exactly if it is a positive integer that divides a power of ten. The test
divides out twos and then fives as long as nothing is left over, which comes to an end for every positive integer. A tree whose
quotients by such numbers are written as decimals has none of them left: one step keeps what is below the root free of them and
writes the one at the root, and `BringsAbout.rebuild` carries that from the leaves upwards.
-/

namespace AlgebraTutor

/-! ### Dividing as long as nothing is left -/

/-- Dividing the first number by `d` as long as that leaves no remainder ends with the second one. -/
inductive DividesOut (d : ℕ) : ℕ → ℕ → Prop
  | done {n : ℕ} (h : n % d ≠ 0) : DividesOut d n n
  | again {n m : ℕ} (h : n % d = 0) (hrest : DividesOut d (n / d) m) : DividesOut d n m

/-- From a positive number the divisions come to an end, and before `fuel` is used up. -/
theorem dividesOut_divideOutAll {d : ℕ} (hd : 1 < d) {fuel n : ℕ} (hn : 0 < n) (hfuel : n < 2 ^ fuel) :
    DividesOut d n (divideOutAll d fuel n) := by
  induction fuel generalizing n with
  | zero => omega
  | succ fuel ih =>
    rw [divideOutAll]
    split_ifs with hdvd
    · have hpos : 0 < n / d := Nat.div_pos (Nat.le_of_dvd hn (Nat.dvd_of_mod_eq_zero hdvd)) (by omega)
      have hhalf : n / d ≤ n / 2 := Nat.div_le_div_left hd (by decide)
      exact .again hdvd (ih hpos (by omega))
    · exact .done hdvd

theorem DividesOut.exists_pow {d n m : ℕ} (h : DividesOut d n m) : ∃ a, n = d ^ a * m := by
  induction h with
  | done => exact ⟨0, by simp⟩
  | @again n m h _ ih =>
    obtain ⟨a, ha⟩ := ih
    exact ⟨a + 1, by rw [pow_succ', mul_assoc, ← ha, Nat.mul_div_cancel' (Nat.dvd_of_mod_eq_zero h)]⟩

theorem DividesOut.pos {d n m : ℕ} (h : DividesOut d n m) (hn : 0 < n) : 0 < m := by
  obtain ⟨a, rfl⟩ := h.exists_pow
  exact Nat.pos_of_mul_pos_left hn

theorem DividesOut.le {d n m : ℕ} (h : DividesOut d n m) (hn : 0 < n) : m ≤ n := by
  obtain ⟨a, rfl⟩ := h.exists_pow
  exact Nat.le_mul_of_pos_left m (Nat.pos_of_mul_pos_right hn)

/-- The number is a positive integer that divides some power of ten. -/
def DividesPowerOfTen (q : ℚ) : Prop :=
  ∃ n k : ℕ, 0 < n ∧ q = n ∧ n ∣ 10 ^ k

/-- Twos are divided out of a positive integer, and fives of what is left of it. -/
theorem hasFiniteReciprocal_natCast {n : ℕ} (hn : 0 < n) :
    ∃ odd rest, DividesOut 2 n odd ∧ DividesOut 5 odd rest ∧ hasFiniteReciprocal n = (rest == 1) := by
  have hsize : n < 2 ^ (n.log2 + 1) := Nat.lt_log2_self
  have htwos := dividesOut_divideOutAll (d := 2) (by decide) hn hsize
  have hfives := dividesOut_divideOutAll (d := 5) (by decide) (htwos.pos hn) ((htwos.le hn).trans_lt hsize)
  have hnot : ¬((n : ℚ).den ≠ 1 ∨ (n : ℚ) ≤ 0) := by
    rw [Rat.den_natCast, not_or, not_not, not_le]
    exact ⟨rfl, Nat.cast_pos.mpr hn⟩
  refine ⟨_, _, htwos, hfives, ?_⟩
  rw [hasFiniteReciprocal, if_neg hnot]
  rfl

/-- Exactly the positive integers that divide a power of ten have a finite reciprocal. -/
theorem hasFiniteReciprocal_iff {q : ℚ} : hasFiniteReciprocal q = true ↔ DividesPowerOfTen q := by
  constructor
  · intro h
    have hinteger : q.den = 1 := by
      by_contra hden
      simp [hasFiniteReciprocal, hden] at h
    have hpos := Reading.pos_of_hasFiniteReciprocal h
    obtain ⟨n, rfl⟩ : ∃ n : ℕ, q = n := by
      obtain ⟨n, hnum⟩ := Int.eq_ofNat_of_zero_le (Rat.num_pos.mpr hpos).le
      exact ⟨n, by rw [← (Rat.den_eq_one_iff q).mp hinteger, hnum, Int.cast_natCast]⟩
    have hn : 0 < n := Nat.cast_pos.mp hpos
    obtain ⟨odd, rest, htwos, hfives, heq⟩ := hasFiniteReciprocal_natCast hn
    obtain rfl : rest = 1 := by simpa [h] using heq
    obtain ⟨a, ha⟩ := htwos.exists_pow
    obtain ⟨b, hb⟩ := hfives.exists_pow
    refine ⟨n, a + b, hn, rfl, ?_⟩
    calc n = 2 ^ a * 5 ^ b := by rw [ha, hb, mul_one]
      _ ∣ 2 ^ (a + b) * 5 ^ (a + b) := mul_dvd_mul (pow_dvd_pow 2 (Nat.le_add_right a b)) (pow_dvd_pow 5 (Nat.le_add_left b a))
      _ = 10 ^ (a + b) := (Nat.mul_pow 2 5 (a + b)).symm
  · rintro ⟨n, k, -, rfl, hdvd⟩
    exact hasFiniteReciprocal_of_dvd hdvd

namespace Tree

/-! ### Operations of a built tree -/

variable {t u : Tree} {op p q : Op} {args us vs : List Tree}

theorem mem_nodes_of_stripParens (h : u ∈ t.stripParens.nodes) : u ∈ t.nodes := by
  induction t using stripParens.induct with
  | case1 content ih =>
    rw [nodes]
    exact List.mem_cons_of_mem _ (ih h)
  | case2 t hplain => rwa [stripParens.eq_2 t hplain] at h

theorem mem_nodes_of_parenIf {needed : Bool} (h : apply q vs ∈ (parenIf needed t).nodes) : apply q vs ∈ t.nodes := by
  cases needed with
  | false => exact h
  | true => simpa [parenIf, nodes] using h

/-- What is built is a number or an operation. -/
theorem eq_const_or_apply_of_build (h : build op args = .ok t) : (∃ value, t = .const value) ∨ ∃ p us, t = .apply p us := by
  rcases build_eq_ok h with ⟨f, -, rfl⟩ | ⟨v, -, -, rfl⟩ | ⟨l, r, -, -, rfl⟩
  · exact .inr ⟨_, _, rfl⟩
  · exact (negate_cases v).imp (fun ⟨value, _, hnegate⟩ => ⟨-value, hnegate⟩) fun hnegate => ⟨_, _, hnegate⟩
  · exact .inr ⟨_, _, rfl⟩

/-- The operations below the root of what is built are operations of its operands. -/
theorem exists_mem_nodes_of_build (h : build op args = .ok (apply p us)) (hu : u ∈ us) (hmem : apply q vs ∈ u.nodes) :
    ∃ a ∈ args, apply q vs ∈ a.nodes := by
  rcases build_eq_ok h with ⟨f, rfl, hcall⟩ | ⟨v, rfl, rfl, hsign⟩ | ⟨l, r, -, rfl, hbinary⟩
  · obtain ⟨-, rfl⟩ := apply.inj hcall
    obtain ⟨a, ha, rfl⟩ := List.mem_map.mp hu
    exact ⟨a, ha, mem_nodes_of_stripParens hmem⟩
  · rcases negate_cases v with ⟨value, -, hnegate⟩ | hnegate
    · simp [hnegate] at hsign
    · obtain ⟨-, rfl⟩ := apply.inj (hsign.trans hnegate)
      obtain rfl := List.mem_singleton.mp hu
      exact ⟨v, by simp, mem_nodes_of_stripParens (mem_nodes_of_parenIf hmem)⟩
  · obtain ⟨-, rfl⟩ := apply.inj hbinary
    rcases List.mem_pair.mp hu with rfl | rfl
    · exact ⟨l, by simp, mem_nodes_of_stripParens (mem_nodes_of_parenIf hmem)⟩
    · exact ⟨r, by simp, mem_nodes_of_stripParens (mem_nodes_of_parenIf hmem)⟩

/-! ### No quotient is left -/

/-- No quotient of the tree is by a number with a finite reciprocal. -/
def FreeOfDecimals (t : Tree) : Prop :=
  ∀ l r d, apply .div [l, r] ∈ t.nodes → r.stripParens = .const d → hasFiniteReciprocal d = false

theorem freeOfDecimals_const (value : ℚ) : (const value).FreeOfDecimals := by
  simp [FreeOfDecimals, nodes]

theorem FreeOfDecimals.stripParens (h : t.FreeOfDecimals) : t.stripParens.FreeOfDecimals :=
  fun l r d hmem => h l r d (mem_nodes_of_stripParens hmem)

theorem freeOfDecimals_apply : (apply op args).FreeOfDecimals ↔
    (∀ l r d, op = .div → args = [l, r] → r.stripParens = .const d → hasFiniteReciprocal d = false) ∧
      ∀ a ∈ args, a.FreeOfDecimals := by
  simp only [FreeOfDecimals, nodes, List.mem_cons, mem_nodesAll, apply.injEq]
  constructor
  · intro h
    exact ⟨fun l r d hop hargs => h l r d (.inl ⟨hop.symm, hargs.symm⟩),
      fun a ha l r d hmem => h l r d (.inr ⟨a, ha, hmem⟩)⟩
  · rintro ⟨hroot, hargs⟩ l r d (⟨hop, heq⟩ | ⟨a, ha, hmem⟩)
    · exact hroot l r d hop.symm heq.symm
    · exact hargs a ha l r d hmem

theorem freeOfDecimals_operands (h : build op args = .ok (apply p us)) (hargs : ∀ a ∈ args, a.FreeOfDecimals) :
    ∀ u ∈ us, u.FreeOfDecimals := by
  intro u hu l r d hmem
  obtain ⟨a, ha, hmem⟩ := exists_mem_nodes_of_build h hu hmem
  exact hargs a ha l r d hmem

theorem freeOfDecimals_product (c : ℚ) (h : t.FreeOfDecimals) : (binary .mul (.const c) t).FreeOfDecimals := by
  have hbuild : build .mul [.const c, t] = .ok (binary .mul (.const c) t) := rfl
  exact freeOfDecimals_apply.mpr ⟨nofun, freeOfDecimals_operands hbuild (by simp [freeOfDecimals_const, h])⟩

/-- What stands behind the leading number is part of the numerator. -/
theorem FreeOfDecimals.leadingNumber (h : t.FreeOfDecimals) : t.leadingNumber.2.FreeOfDecimals := by
  unfold Tree.leadingNumber
  split
  · split
    · exact (freeOfDecimals_apply.mp h).2 _ (by simp)
    · exact h
  · exact h

theorem FreeOfDecimals.decimalProduct (h : t.FreeOfDecimals) (d : ℚ) : (t.decimalProduct d).FreeOfDecimals := by
  unfold Tree.decimalProduct
  split
  · exact freeOfDecimals_const _
  · exact freeOfDecimals_product _ ((freeOfDecimals_apply.mp h).2 _ (by simp)).stripParens.leadingNumber
  · exact freeOfDecimals_product _ h.leadingNumber

/-- One step writes the quotient at the root as a decimal, if it is one, and quotients below it are none. -/
theorem freeOfDecimals_decimalNode (h : ∀ a ∈ args, a.FreeOfDecimals) : (decimalNode (apply op args)).FreeOfDecimals := by
  unfold Tree.decimalNode
  split
  · rename_i left right heq
    obtain ⟨rfl, rfl⟩ := apply.inj heq
    have hkept (hright : ∀ d, right.stripParens = .const d → hasFiniteReciprocal d = false) :
        (apply .div [left, right]).FreeOfDecimals := by
      refine freeOfDecimals_apply.mpr ⟨?_, h⟩
      rintro l r d - ⟨⟩
      exact hright d
    split
    · rename_i d hd
      split_ifs with hfinite
      · exact (h left (by simp)).stripParens.decimalProduct d
      · refine hkept fun d' hd' => ?_
        obtain rfl := const.inj (hd.symm.trans hd')
        simpa using hfinite
    · rename_i hnumber
      exact hkept fun d hd => absurd hd (hnumber d)
  · rename_i hquotient
    refine freeOfDecimals_apply.mpr ⟨?_, h⟩
    rintro l r d rfl rfl
    exact absurd rfl (hquotient l r)

theorem bringsAbout_decimalNode : BringsAbout FreeOfDecimals decimalNode where
  const := freeOfDecimals_const
  symbol name := by simp [FreeOfDecimals, decimalNode, nodes]
  build op args t hargs hbuild := by
    rcases eq_const_or_apply_of_build hbuild with ⟨value, rfl⟩ | ⟨p, us, rfl⟩
    · exact freeOfDecimals_const value
    · exact freeOfDecimals_decimalNode (freeOfDecimals_operands hbuild hargs)

/-- The test for a finite reciprocal ends and answers what it should. Writing quotients as decimals answers wherever rebuilding
does with some pass, and leaves no quotient by a number that passes the test. -/
theorem withDecimals_finishes :
    (∀ n : ℕ, 0 < n → ∃ odd rest, DividesOut 2 n odd ∧ DividesOut 5 odd rest ∧ hasFiniteReciprocal n = (rest == 1)) ∧
    (∀ q : ℚ, hasFiniteReciprocal q = true ↔ DividesPowerOfTen q) ∧
    ∀ (t u : Tree) (f : Tree → Tree), t.rebuild f = .ok u → ∃ v, t.withDecimals = .ok v ∧
      ∀ l r d, apply .div [l, r] ∈ v.nodes → r.stripParens = .const d → ¬DividesPowerOfTen d := by
  refine ⟨fun n => hasFiniteReciprocal_natCast, fun q => hasFiniteReciprocal_iff, fun t u f h => ?_⟩
  obtain ⟨v, hv⟩ := @exists_rebuild t u decimalNode f h
  have hfree : v.FreeOfDecimals := bringsAbout_decimalNode.rebuild hv
  refine ⟨v, hv, fun l r d hmem hd hdivides => ?_⟩
  rw [← hasFiniteReciprocal_iff, hfree l r d hmem hd] at hdivides
  exact Bool.false_ne_true hdivides

/-- In `-(3x)/4 + y/6` the sign and the number of the first numerator are taken into its decimal, and the second quotient stays. -/
theorem withDecimals_finishes_signed :
    let y := symbol "y"
    let t := binary .add (binary .div (binary .mul (.const 3) (symbol "x")).negate (.const 4)) (binary .div y (.const 6))
    let v := binary .add (binary .mul (.const (-3 / 4)) (symbol "x")) (binary .div y (.const 6))
    (∃ odd rest, DividesOut 2 40 odd ∧ DividesOut 5 odd rest ∧ hasFiniteReciprocal (40 : ℕ) = (rest == 1)) ∧
      hasFiniteReciprocal (40 : ℕ) = true ∧ t.rebuild id = .ok t ∧ t.withDecimals = .ok v ∧
      apply .div [y, .const 6] ∈ v.nodes ∧ ¬DividesPowerOfTen 6 := by
  intro y t v
  obtain ⟨hends, hanswers, hleaves⟩ := withDecimals_finishes
  have ht : t.rebuild id = .ok t := by decide +kernel
  have hv : t.withDecimals = .ok v := by decide +kernel
  have hmem : apply .div [y, .const 6] ∈ v.nodes := by decide +kernel
  obtain ⟨v', hv', hfree⟩ := hleaves t t id ht
  obtain rfl := Except.ok.inj (hv.symm.trans hv')
  exact ⟨hends 40 (by decide), (hanswers (40 : ℕ)).mpr ⟨40, 3, by decide, rfl, by decide⟩, ht, hv, hmem,
    hfree y (.const 6) 6 hmem rfl⟩

end Tree

end AlgebraTutor
