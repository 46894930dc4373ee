import AlgebraTutor.Proofs.Pattern.OpenWork
import AlgebraTutor.Proofs.Reader.Written
import AlgebraTutor.Proofs.Tree.Digits

/-!
# Finished arithmetic

Whether arithmetic on numbers is finished depends on two texts, its own and that of its value. Both trees are read back from
their texts, so the texts agree only if the trees do: finished is what is its own normal form. A value is laid out as an
integer or as a fraction in lowest terms, so that of the operations on two integers only such fractions are finished.
-/

namespace AlgebraTutor

open MvPolynomial (C)

/-- The value of an operation on two numbers; a quotient by zero has none. -/
inductive Op.Yields : Op → ℚ → ℚ → ℚ → Prop
  | add (a b : ℚ) : Op.Yields .add a b (a + b)
  | sub (a b : ℚ) : Op.Yields .sub a b (a - b)
  | mul (a b : ℚ) : Op.Yields .mul a b (a * b)
  | div (a : ℚ) {b : ℚ} (hb : b ≠ 0) : Op.Yields .div a b (a / b)

namespace Tree

variable {t v : Tree} {op : Op} {a b : ℤ} {c : ℚ}

/-! ### Arithmetic and its value -/

theorem eq_of_text (ht : t.Composed) (hv : v.Composed) {s : String} (hts : t.text = .ok s) (hvs : v.text = .ok s) : t = v := by
  obtain ⟨s', hs', hread⟩ := Reader.ofText_of_composed ht
  obtain ⟨s'', hs'', hread'⟩ := Reader.ofText_of_composed hv
  obtain rfl := Except.ok.inj (hts.symm.trans hs')
  obtain rfl := Except.ok.inj (hvs.symm.trans hs'')
  exact Except.ok.inj (hread.symm.trans hread')

/-- The pattern of unfinished arithmetic. -/
def arithmeticPattern (t : Tree) (before after : String) : Pattern :=
  ⟨.constantArithmetic, "The constant arithmetic " ++ before ++ " can be evaluated", [t], becomes before after⟩

section Written

variable {before after : String} (hnumbers : t.isNumberOperation = true) (hsimplify : t.simplify = .ok v)
  (hbefore : t.text = .ok before) (hafter : v.text = .ok after)

include hnumbers hsimplify hbefore hafter

theorem constantArithmeticAt_of_text :
    t.constantArithmeticAt = .ok (if before = after then [] else [arithmeticPattern t before after]) := by
  simp only [constantArithmeticAt, hnumbers, hsimplify, hbefore, hafter, Answer.ok_bind, Bool.not_true, Bool.false_eq_true, if_false]
  split_ifs <;> rfl

theorem isUnfinishedArithmetic_of_text : t.isUnfinishedArithmetic = .ok (decide (after ≠ before)) := by
  simp [isUnfinishedArithmetic, hnumbers, hsimplify, hbefore, hafter]

end Written

/-- Arithmetic is looked at without a failure where it and its value can be written. It is finished exactly if it is its own
value. -/
theorem exists_constantArithmeticAt (hnumbers : t.isNumberOperation = true) (ht : t.Composed) (hv : v.Composed)
    (hsimplify : t.simplify = .ok v) :
    ∃ found, t.constantArithmeticAt = .ok found ∧ (found = [] ↔ v = t) ∧ t.isUnfinishedArithmetic = .ok (!found.isEmpty) := by
  obtain ⟨before, hbefore, -⟩ := Reader.ofText_of_composed ht
  obtain ⟨after, hafter, -⟩ := Reader.ofText_of_composed hv
  have hsame : before = after ↔ v = t := by
    constructor
    · intro heq
      exact (eq_of_text ht hv hbefore (heq ▸ hafter)).symm
    · intro heq
      exact Except.ok.inj (hbefore.symm.trans (heq ▸ hafter))
  refine ⟨_, constantArithmeticAt_of_text hnumbers hsimplify hbefore hafter, ?_, ?_⟩
  · rw [← hsame]
    split_ifs with heq <;> simp [heq]
  · rw [isUnfinishedArithmetic_of_text hnumbers hsimplify hbefore hafter]
    split_ifs with heq
    · simp [heq]
    · simp [Ne.symm heq]

/-! ### Operations on two integers -/

theorem isNumberOperation_binary (op : Op) (x y : ℚ) : (binary op (.const x) (.const y)).isNumberOperation = true := by
  have hnumber {needed : Bool} {x : ℚ} : (parenIf needed (.const x)).isNumber = true := by
    rw [isNumber, stripParens_parenIf rfl]
  simp [binary, isNumberOperation, stripParens, hnumber]

theorem denotes_binary_const {x y : ℚ} (h : op.Yields x y c) : (binary op (.const x) (.const y)).Denotes (C c) := by
  cases h with
  | add =>
    rw [MvPolynomial.C_add]
    exact interpretation.holds_binary_add (.const x) (.const y)
  | sub =>
    rw [MvPolynomial.C_sub]
    exact interpretation.holds_binary_sub (.const x) (.const y)
  | mul =>
    rw [MvPolynomial.C_mul]
    exact interpretation.holds_binary_mul (.const x) (.const y)
  | div x hy =>
    have hquotient : (apply .div [.const x, .const y]).Denotes (C y⁻¹ * C x) := .div (.const x) (.const y) hy
    rw [← MvPolynomial.C_mul, inv_mul_eq_div] at hquotient
    exact interpretation.holds_binary rfl hquotient

theorem simplify_binary_const {x y : ℚ} (h : op.Yields x y c) : (binary op (.const x) (.const y)).simplify = .ok (ofRat c) := by
  rw [← toTree_const_rat]
  refine simplify_of_denotes (Polynomial.canonical_const c) ?_
  rw [Polynomial.toMv_const]
  exact denotes_binary_const h

theorem binary_const_inj {op' : Op} {x y x' y' : ℚ} (h : binary op (.const x) (.const y) = binary op' (.const x') (.const y')) :
    op = op' ∧ x = x' ∧ y = y' := by
  obtain ⟨hop, hargs⟩ := apply.inj h
  obtain ⟨hleft, hright⟩ : _ ∧ _ := by simpa [stripParens] using hargs
  have hstrip {needed needed' : Bool} {x x' : ℚ} (h : parenIf needed (.const x) = parenIf needed' (.const x')) : x = x' := by
    have hplain := congrArg Tree.stripParens h
    rw [stripParens_parenIf rfl, stripParens_parenIf rfl] at hplain
    exact const.inj hplain
  exact ⟨hop, hstrip hleft, hstrip hright⟩

/-- Of the operations on two integers, those that are their own values are the fractions in lowest terms. -/
theorem ofRat_eq_binary_iff (h : op.Yields a b c) :
    ofRat c = binary op (.const a) (.const b) ↔ op = .div ∧ 2 ≤ b ∧ Int.gcd a b = 1 := by
  constructor
  · intro heq
    unfold ofRat at heq
    split_ifs at heq with hden
    · simp [binary] at heq
    · obtain ⟨rfl, hnum, hden'⟩ := binary_const_inj heq
      obtain rfl : c.num = a := by exact_mod_cast hnum
      obtain rfl : (c.den : ℤ) = b := by exact_mod_cast hden'
      have hpos := c.den_pos
      exact ⟨rfl, by omega, c.reduced⟩
  · rintro ⟨rfl, hb, hgcd⟩
    cases h
    have hnum : ((a : ℚ) / b).num = a := Rat.num_div_eq_of_coprime (by omega) hgcd
    have hden : (((a : ℚ) / b).den : ℤ) = b := Rat.den_div_eq_of_coprime (by omega) hgcd
    have hproper : ((a : ℚ) / b).den ≠ 1 := by omega
    have hcast : ((((a : ℚ) / b).den : ℕ) : ℚ) = b := by exact_mod_cast congrArg (Int.cast : ℤ → ℚ) hden
    rw [ofRat, if_neg hproper, hnum, hcast]

/-! ### Values that can be written -/

theorem composed_ofRat (hnum : IsShort c.num) (hden : IsShort c.den) : (ofRat c).Composed := by
  have hdenominator : (const (c.den : ℚ)).Composed := Int.cast_natCast (R := ℚ) c.den ▸ .integer c.den hden
  unfold ofRat
  split_ifs
  · exact .integer _ hnum
  · exact .binary rfl (.integer _ hnum) hdenominator

theorem natAbs_num_div_le (hb : b ≠ 0) : ((a : ℚ) / b).num.natAbs ≤ a.natAbs := by
  by_cases ha : a = 0
  · simp [ha]
  · rw [← Rat.divInt_eq_div]
    exact Nat.le_of_dvd (Int.natAbs_pos.mpr ha) (Int.natAbs_dvd_natAbs.mpr (Rat.num_dvd a hb))

theorem den_div_le (hb : b ≠ 0) : ((a : ℚ) / b).den ≤ b.natAbs := by
  rw [← Rat.divInt_eq_div]
  exact Nat.le_of_dvd (Int.natAbs_pos.mpr hb) (by simpa using Int.natAbs_dvd_natAbs.mpr (Rat.den_dvd a b))

/-- An operation on integers of less than half as many digits as can be written has a value that can be written. -/
theorem composed_of_yields {n : ℕ} (hn : 2 * n + 1 ≤ digitLimit) (ha : a.natAbs < 10 ^ n) (hb : b.natAbs < 10 ^ n)
    (h : op.Yields a b c) : (ofRat c).Composed := by
  have hpower : 10 ^ n + 10 ^ n ≤ 10 ^ digitLimit ∧ 10 ^ n * 10 ^ n ≤ 10 ^ digitLimit ∧ 10 ^ n ≤ 10 ^ digitLimit := by
    have hlimit : 10 ^ n * 10 ^ n * 10 ≤ 10 ^ digitLimit := by
      rw [← pow_add, ← pow_succ]
      exact Nat.pow_le_pow_right (by decide) (by omega)
    have hself := Nat.le_mul_self (10 ^ n)
    omega
  obtain ⟨hsum, hproduct, hsingle⟩ := hpower
  have hinteger {k : ℤ} (hk : k.natAbs < 10 ^ digitLimit) : (ofRat (k : ℚ)).Composed := by
    exact composed_ofRat (by simpa using isShort_of_natAbs_lt hk) (by simpa using isShort_one)
  cases h with
  | add => exact_mod_cast @hinteger (a + b) (by omega)
  | sub => exact_mod_cast @hinteger (a - b) (by omega)
  | mul =>
    have hlt : (a * b).natAbs < 10 ^ digitLimit := by
      rw [Int.natAbs_mul]
      exact lt_of_lt_of_le (Nat.mul_lt_mul'' ha hb) hproduct
    exact_mod_cast hinteger hlt
  | div a hzero =>
    have hzero : b ≠ 0 := by exact_mod_cast hzero
    have hnum := natAbs_num_div_le (a := a) hzero
    have hden := den_div_le (a := a) hzero
    exact composed_ofRat (isShort_of_natAbs_lt (by omega)) (isShort_of_natAbs_lt (by simp; omega))

/-! ### Whole trees -/

/-- Below an operation on two numbers there are only the numbers and their parentheses. -/
theorem exists_nodes_binary_const (op : Op) (x y : ℚ) :
    ∃ rest, (binary op (.const x) (.const y)).nodes = binary op (.const x) (.const y) :: rest ∧
      ∀ n ∈ rest, n.isNumberOperation = false ∧ n.hasUnitFactor = false := by
  refine ⟨_, by rw [binary, nodes], ?_⟩
  intro n hn
  obtain ⟨u, hu, hn⟩ := mem_nodesAll.mp hn
  obtain ⟨needed, z, rfl⟩ : ∃ needed z, u = parenIf needed (.const z) := by
    rcases List.mem_pair.mp hu with rfl | rfl <;> exact ⟨_, _, rfl⟩
  cases needed with
  | false =>
    obtain rfl : n = .const z := by simpa [parenIf, nodes] using hn
    exact ⟨rfl, rfl⟩
  | true =>
    rcases (by simpa [parenIf, nodes] using hn : n = .paren (.const z) ∨ n = .const z) with rfl | rfl
    all_goals exact ⟨rfl, rfl⟩

theorem openArithmetic_binary_const {x y : ℚ} {found : List Pattern}
    (h : (binary op (.const x) (.const y)).constantArithmeticAt = .ok found) :
    (binary op (.const x) (.const y)).openArithmetic = .ok found := by
  obtain ⟨rest, hnodes, hrest⟩ := exists_nodes_binary_const op x y
  have hquiet : collectAt constantArithmeticAt rest = .ok [] := collectAt_eq_nil_iff.mpr fun n hn => by
    simp [constantArithmeticAt, (hrest n hn).1]
  simp [openArithmetic, hnodes, collectAt, h, hquiet]

theorem hasOpenWork_binary_const {x y : ℚ} {unfinished : Bool}
    (h : (binary op (.const x) (.const y)).isUnfinishedArithmetic = .ok unfinished)
    (hunit : unfinished = false → (binary op (.const x) (.const y)).hasUnitFactor = false) :
    (binary op (.const x) (.const y)).hasOpenWork = .ok unfinished := by
  obtain ⟨rest, hnodes, hrest⟩ := exists_nodes_binary_const op x y
  have hquiet : someUnfinished rest = .ok false := someUnfinished_eq_false_iff.mpr fun n hn =>
    ⟨by simp [isUnfinishedArithmetic, (hrest n hn).1], (hrest n hn).2⟩
  cases unfinished with
  | true => simp [hasOpenWork, hnodes, someUnfinished, h]
  | false => simp [hasOpenWork, hnodes, someUnfinished, h, hunit rfl, hquiet]

/-- Arithmetic on two integers of at most two thousand digits is looked at without a failure. Nothing is found exactly if it
is a fraction in lowest terms with a denominator above one, and the tree counts as unfinished exactly if something is found. -/
theorem openArithmetic_integers (hop : op ∈ [Op.add, .sub, .mul, .div]) (ha : (Nat.toDigits 10 a.natAbs).length ≤ 2000)
    (hb : (Nat.toDigits 10 b.natAbs).length ≤ 2000) (hzero : op = .div → b ≠ 0) :
    ∃ t found, build op [.const a, .const b] = .ok t ∧ t.openArithmetic = .ok found ∧
      (found = [] ↔ op = .div ∧ 2 ≤ b ∧ Int.gcd a b = 1) ∧ t.hasOpenWork = .ok (!found.isEmpty) := by
  obtain ⟨harithmetic, c, hvalue⟩ : op.isArithmetic = true ∧ ∃ c, op.Yields a b c := by
    simp only [List.mem_cons, List.not_mem_nil, or_false] at hop
    rcases hop with rfl | rfl | rfl | rfl
    · exact ⟨rfl, _, .add a b⟩
    · exact ⟨rfl, _, .sub a b⟩
    · exact ⟨rfl, _, .mul a b⟩
    · exact ⟨rfl, _, .div a (by exact_mod_cast hzero rfl)⟩
  -- the number of digits stays a variable, so that no power of ten is worked out
  obtain ⟨n, hn⟩ : ∃ n, n = 2000 := ⟨_, rfl⟩
  rw [← hn] at ha hb
  have hlimit : 2 * n + 1 ≤ digitLimit := by rw [hn]; decide
  have hbound {k : ℤ} (hk : (Nat.toDigits 10 k.natAbs).length ≤ n) : k.natAbs < 10 ^ n ∧ IsShort k :=
    ⟨(Nat.length_toDigits_le_iff (by decide) (by omega)).mp hk, hk.trans (by omega)⟩
  have hcomposed : (binary op (.const a) (.const b)).Composed :=
    .binary harithmetic (.integer a (hbound ha).2) (.integer b (hbound hb).2)
  have hresult : (ofRat c).Composed := composed_of_yields hlimit (hbound ha).1 (hbound hb).1 hvalue
  obtain ⟨found, hfound, hnil, hunfinished⟩ := exists_constantArithmeticAt (isNumberOperation_binary op a b) hcomposed hresult
    (simplify_binary_const hvalue)
  rw [ofRat_eq_binary_iff hvalue] at hnil
  refine ⟨_, found, build_binary harithmetic _ _, openArithmetic_binary_const hfound, hnil,
    hasOpenWork_binary_const hunfinished ?_⟩
  intro hempty
  obtain ⟨rfl, -⟩ := hnil.mp (by simpa using hempty)
  rfl

/-- Two sixths are unfinished. -/
theorem openArithmetic_two_sixths : ∃ t found, build .div [.const 2, .const 6] = .ok t ∧ t.openArithmetic = .ok found ∧
    found ≠ [] ∧ t.hasOpenWork = .ok true := by
  obtain ⟨t, found, ht, hfound, hnil, hwork⟩ := @openArithmetic_integers .div 2 6 (by decide) (by decide) (by decide)
    (by decide)
  have hne : found ≠ [] := by
    rw [Ne, hnil]
    decide
  rw [List.isEmpty_eq_false_iff.mpr hne] at hwork
  exact ⟨t, found, ht, hfound, hne, hwork⟩

end Tree

end AlgebraTutor
