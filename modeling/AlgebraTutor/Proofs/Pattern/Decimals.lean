import Mathlib.Data.Nat.Prime.Basic
import AlgebraTutor.Pattern.Decimal
import AlgebraTutor.Proofs.Polynomial.Writing
import AlgebraTutor.Proofs.Reader.DecimalRoundTrip
import AlgebraTutor.Proofs.Reader.Multiple

/-!
# Products of a decimal and letters

Such a product is simplified to a quotient by the denominator of the decimal. Written as a decimal again, the quotient of a number
or of a number and one letter is the product that it came from. With more letters the numerator is a product of products, no number
is found in front of it, and the reciprocal of the denominator is multiplied by the whole of it, in parentheses.
-/

namespace AlgebraTutor

open Text (DecimalNumeral)

/-! ### Denominators of decimals -/

theorem divideOutAll_mul {d m : ℕ} (hd : 0 < d) (hm : ¬d ∣ m) {a fuel : ℕ} (hfuel : a ≤ fuel) :
    divideOutAll d fuel (d ^ a * m) = m := by
  induction fuel generalizing a with
  | zero =>
    obtain rfl := Nat.le_zero.mp hfuel
    rw [divideOutAll, pow_zero, one_mul]
  | succ fuel ih =>
    cases a with
    | zero => rw [pow_zero, one_mul, divideOutAll, if_neg fun h => hm (Nat.dvd_of_mod_eq_zero h)]
    | succ a =>
      rw [pow_succ', mul_assoc, divideOutAll, if_pos (Nat.mul_mod_right _ _), Nat.mul_div_cancel_left _ hd,
        ih (Nat.le_of_succ_le_succ hfuel)]

/-- A divisor of a power of ten has a finite reciprocal. -/
theorem hasFiniteReciprocal_of_dvd {n k : ℕ} (h : n ∣ 10 ^ k) : hasFiniteReciprocal n = true := by
  have htens : 10 ^ k = 2 ^ k * 5 ^ k := Nat.mul_pow 2 5 k
  obtain ⟨twos, fives, htwos, hfives, rfl⟩ := Nat.dvd_mul.mp (htens ▸ h)
  obtain ⟨a, -, rfl⟩ := (Nat.dvd_prime_pow Nat.prime_two).mp htwos
  obtain ⟨b, -, rfl⟩ := (Nat.dvd_prime_pow Nat.prime_five).mp hfives
  have hpos : 0 < 2 ^ a * 5 ^ b := by positivity
  have hodd : ¬2 ∣ 5 ^ b := fun hdvd => absurd (Nat.prime_two.dvd_of_dvd_pow hdvd) (by decide)
  have ha : a ≤ (2 ^ a * 5 ^ b).log2 + 1 :=
    Nat.le_succ_of_le ((Nat.le_log2 hpos.ne').mpr (Nat.le_mul_of_pos_right _ (by positivity)))
  have hb : b ≤ (2 ^ a * 5 ^ b).log2 + 1 :=
    Nat.le_succ_of_le ((Nat.le_log2 hpos.ne').mpr
      ((Nat.pow_le_pow_left (by decide) b).trans (Nat.le_mul_of_pos_left _ (by positivity))))
  have hfive := @divideOutAll_mul 5 1 (by decide) (by decide) b _ hb
  rw [mul_one] at hfive
  have hnot : ¬(((2 ^ a * 5 ^ b : ℕ) : ℚ).den ≠ 1 ∨ ((2 ^ a * 5 ^ b : ℕ) : ℚ) ≤ 0) := by
    rw [Rat.den_natCast, not_or, not_not, not_le]
    exact ⟨rfl, Nat.cast_pos.mpr hpos⟩
  rw [hasFiniteReciprocal, if_neg hnot]
  simp only [Rat.num_natCast, Int.toNat_natCast]
  rw [divideOutAll_mul (by decide) hodd ha, hfive]
  rfl

namespace Text.DecimalNumeral

/-- A decimal is a fraction over a power of ten. -/
theorem den_value_dvd (d : DecimalNumeral) : d.value.den ∣ 10 ^ d.fraction.length := by
  have hdvd := Rat.den_dvd (numeralValue 10 (d.whole ++ d.fraction)) (10 ^ d.fraction.length : ℕ)
  have hvalue : Rat.divInt (numeralValue 10 (d.whole ++ d.fraction)) (10 ^ d.fraction.length : ℕ) = d.value := by
    rw [Rat.divInt_eq_div, value]
    push_cast
    rfl
  rw [hvalue] at hdvd
  exact_mod_cast hdvd

end Text.DecimalNumeral

/-- The monomial of letters, each once. -/
def Monomial.ofLetters (letters : List Char) : Monomial :=
  letters.map fun c => (c.toString, 1)

/-- Different letters in alphabetical order, none of which names a number. -/
structure AreUnknowns (letters : List Char) : Prop where
  unknown : ∀ c ∈ letters, Tree.IsUnknown c.toString
  increasing : letters.Pairwise (· < ·)

namespace Tree

open AlgebraTutor.Polynomial (termTree)

variable {t u : Tree} {letters : List Char} {q : ℚ} {n : ℤ}

/-! ### Products with letters -/

theorem timesLetters_cons (t : Tree) (c : Char) (letters : List Char) :
    timesLetters t (c :: letters) = timesLetters (binary .mul t (.symbol c.toString)) letters :=
  rfl

theorem toTrees_ofLetters (letters : List Char) : (Monomial.ofLetters letters).toTrees = letters.map fun c => .symbol c.toString := by
  rw [Monomial.toTrees, Monomial.ofLetters, List.map_map]
  rfl

theorem timesLetters_eq_foldl (t : Tree) (letters : List Char) :
    timesLetters t letters = (Monomial.ofLetters letters).toTrees.foldl (binary .mul) t := by
  rw [toTrees_ofLetters, List.foldl_map]
  rfl

/-- The product of an integer and letters, as terms are laid out. -/
def numerator (n : ℤ) (letters : List Char) : Tree :=
  integerMultiple n (Monomial.ofLetters letters).toTrees

/-- A positive number that is not one is written in front of the letters, and one is not written. -/
theorem numerator_cases (hn : 0 < n) (letters : List Char) :
    numerator n letters = multiple n letters ∨
      n = 1 ∧ ∃ c cs, letters = c :: cs ∧ numerator n letters = timesLetters (.symbol c.toString) cs := by
  rw [numerator, integerMultiple, multiple, timesLetters_eq_foldl]
  split_ifs with hone hminus
  · cases letters with
    | nil =>
      rw [hone]
      exact .inl rfl
    | cons c cs => exact .inr ⟨hone, c, cs, rfl, (timesLetters_eq_foldl _ _).symm⟩
  · omega
  · exact .inl rfl

/-! ### Simplifying -/

section Unknowns

variable (h : AreUnknowns letters)

include h

theorem isFactor_letters : ∀ u ∈ (Monomial.ofLetters letters).toTrees, IsFactor u := by
  rw [toTrees_ofLetters]
  exact List.forall_mem_map.mpr fun c hc => .symbol (h.unknown c hc)

theorem isTerm_numerator (hn : 0 < n) : IsTerm (numerator n letters) := by
  have hfactors := isFactor_letters h
  rcases numerator_cases hn letters with heq | ⟨-, c, cs, rfl, heq⟩
  · rw [heq, multiple, timesLetters_eq_foldl]
    exact isTerm_foldl_mul (isTerm_integer hn.le) hfactors
  · rw [heq, timesLetters_eq_foldl]
    exact isTerm_foldl_mul (.factor (.symbol (h.unknown c List.mem_cons_self))) fun u hu => hfactors u (List.mem_cons_of_mem _ hu)

theorem canonical_ofLetters : (Monomial.ofLetters letters).Canonical where
  increasing := by
    refine List.pairwise_map.mpr (h.increasing.imp fun {c d} hlt => ?_)
    have hsingle : [c] < [d] := .rel hlt
    rw [String.lt_iff_toList_lt]
    simpa using hsingle
  positive := List.forall_mem_map.mpr fun _ _ => Nat.one_pos

theorem unknowns_ofLetters : ∀ f ∈ Monomial.ofLetters letters, IsUnknown f.1 :=
  List.forall_mem_map.mpr h.unknown

/-- A product of a number and letters is simplified to the term of the letters. -/
theorem simplify_multiple (hq : q ≠ 0) : (multiple q letters).simplify = .ok (termTree (Monomial.ofLetters letters) q) := by
  have hunreserved : ∀ f ∈ Monomial.ofLetters letters, isNamedConstant f.1 = false := fun f hf => (unknowns_ofLetters h f hf).2
  have hdenotes := Denotes.foldl_mul (.const q) (Monomial.forall₂_toTrees hunreserved)
  rw [← Monomial.monomial_exponents, ← timesLetters_eq_foldl] at hdenotes
  have hvalue : Polynomial.toMv [(Monomial.ofLetters letters, q)] =
      MvPolynomial.monomial (Monomial.ofLetters letters).exponents q := by
    rw [Polynomial.toMv_cons, Polynomial.toMv_nil, add_zero]
  rw [← hvalue] at hdenotes
  rw [multiple, simplify_of_denotes (Polynomial.canonical_singleton (canonical_ofLetters h) hq) hdenotes,
    Polynomial.toTree_singleton]

/-- The term is the quotient of its numerator and its denominator. -/
theorem termTree_letters (hq : 0 < q) (hden : q.den ≠ 1) : termTree (Monomial.ofLetters letters) q =
    .apply .div [numerator q.num letters, .const q.den] := by
  have hnum := Rat.num_pos.mpr hq
  have hterm := isTerm_numerator h hnum
  have hover := binary_over hterm.stripParens hterm.isUnsigned.1 q.den
  cases letters with
  | nil =>
    have hnumerator : numerator q.num [] = .const q.num := by
      rcases numerator_cases hnum [] with heq | ⟨-, c, cs, hnil, -⟩
      · exact heq
      · simp at hnil
    rw [hnumerator] at hover ⊢
    have hempty : List.isEmpty (Monomial.ofLetters []) = true := rfl
    rw [← hover, termTree, if_pos hempty, ofRat, if_neg hden]
  | cons c cs =>
    rw [← hover, termTree, if_neg (by simp [Monomial.ofLetters])]
    exact if_neg hden

end Unknowns

/-! ### Quotients as decimals -/

theorem rebuild_timesLetters (hplain : t.stripParens = t) (ht : t.rebuild decimalNode = .ok t) (letters : List Char) :
    (timesLetters t letters).rebuild decimalNode = .ok (timesLetters t letters) := by
  induction letters generalizing t with
  | nil => exact ht
  | cons c letters ih =>
    have hletter : (symbol c.toString).rebuild decimalNode = .ok (.symbol c.toString) := rfl
    exact ih rfl (rebuild_binary rfl hplain rfl ht hletter)

theorem rebuild_numerator (hn : 0 < n) (letters : List Char) :
    (numerator n letters).rebuild decimalNode = .ok (numerator n letters) := by
  rcases numerator_cases hn letters with heq | ⟨-, c, cs, rfl, heq⟩ <;> rw [heq]
  · exact rebuild_timesLetters rfl rfl letters
  · exact rebuild_timesLetters rfl rfl cs

/-- A quotient by a number with a finite reciprocal is written as a decimal, whatever its numerator. -/
theorem withDecimals_over (hplain : t.stripParens = t) (hprecedence : 2 ≤ t.precedence) (ht : t.rebuild decimalNode = .ok t) {d : ℕ}
    (hd : hasFiniteReciprocal d = true) : (apply .div [t, .const d]).withDecimals = .ok (t.decimalProduct d) := by
  have hnumber : (const d).rebuild decimalNode = .ok (.const d) := rfl
  have hrebuilt : (binary .div t (.const d)).rebuild decimalNode = .ok (decimalNode (binary .div t (.const d))) :=
    rebuild_binary rfl hplain rfl ht hnumber
  rw [binary_over hplain hprecedence] at hrebuilt
  rw [withDecimals, hrebuilt, decimalNode]
  simp only [stripParens, hd, if_true, hplain]

theorem decimalProduct_eq (hconst : ∀ value, t ≠ .const value) (hsign : ∀ u, t ≠ .apply .sub [u]) (d : ℚ) :
    t.decimalProduct d = binary .mul (.const (t.leadingNumber.1 / d)) t.leadingNumber.2 := by
  unfold decimalProduct
  split
  · exact absurd rfl (hconst _)
  · exact absurd rfl (hsign _)
  · dsimp only
    rw [one_mul]

/-- The tree is a product whose left factor is no number. -/
def IsNested (t : Tree) : Prop :=
  ∃ u v, t = binary .mul u v ∧ u.stripParens = u ∧ ∀ value, u ≠ .const value

theorem isNested_timesLetters (hplain : t.stripParens = t) (hconst : ∀ value, t ≠ .const value) (c : Char) (cs : List Char) :
    IsNested (timesLetters t (c :: cs)) := by
  induction cs generalizing t c with
  | nil => exact ⟨t, .symbol c.toString, rfl, hplain, hconst⟩
  | cons e cs ih => exact ih rfl (by simp [binary]) e

/-- No number is found in front of the numerator, so the whole of it is multiplied. -/
theorem IsNested.decimalProduct (h : IsNested t) (d : ℚ) : t.decimalProduct d = binary .mul (.const (1 / d)) t := by
  obtain ⟨u, v, rfl, hplain, hconst⟩ := h
  have hleading : (binary .mul u v).leadingNumber = (1, binary .mul u v) := by
    rw [binary, hplain, leadingNumber, stripParens_parenIf hplain]
    split
    · exact absurd rfl (hconst _)
    · rfl
  rw [decimalProduct_eq (by simp [binary]) (by simp [binary]), hleading]

/-- Before one letter at most, the number in front of the numerator is divided, and one if there is none. -/
theorem decimalProduct_of_short (hn : 0 < n) (hshort : letters.length ≤ 1) (d : ℚ) :
    (numerator n letters).decimalProduct d = multiple (n / d) letters := by
  rcases numerator_cases hn letters with heq | ⟨rfl, c, cs, rfl, heq⟩ <;> rw [heq]
  · rcases letters with _ | ⟨c, _ | ⟨e, cs⟩⟩
    · rfl
    · have hproduct : multiple n [c] = .apply .mul [.const n, .symbol c.toString] := binary_mul_symbol n c.toString
      rw [hproduct, decimalProduct_eq (by simp) (by simp)]
      rfl
    · simp at hshort
  · obtain rfl : cs = [] := by simpa using hshort
    have hsymbol : timesLetters (.symbol c.toString) [] = .symbol c.toString := rfl
    rw [hsymbol, decimalProduct_eq (by simp) (by simp), Int.cast_one]
    rfl

theorem isNested_numerator (hn : 0 < n) (hlong : 1 < letters.length) : IsNested (numerator n letters) := by
  rcases numerator_cases hn letters with heq | ⟨rfl, c, cs, rfl, heq⟩ <;> rw [heq]
  · rcases letters with _ | ⟨c, _ | ⟨e, cs⟩⟩
    · simp at hlong
    · simp at hlong
    · exact isNested_timesLetters rfl (by simp [binary]) e cs
  · obtain ⟨e, cs, rfl⟩ := List.exists_cons_of_ne_nil (by rintro rfl; simp at hlong : cs ≠ [])
    exact isNested_timesLetters rfl (by simp) e cs

/-- What the simplified product is written as when its quotient is written as a decimal. -/
theorem withDecimals_termTree (h : AreUnknowns letters) (hq : 0 < q) (hden : q.den ≠ 1) {k : ℕ} (hdvd : q.den ∣ 10 ^ k) :
    (termTree (Monomial.ofLetters letters) q).withDecimals = .ok ((numerator q.num letters).decimalProduct q.den) := by
  have hnum := Rat.num_pos.mpr hq
  have hterm := isTerm_numerator h hnum
  rw [termTree_letters h hq hden]
  exact withDecimals_over hterm.stripParens hterm.isUnsigned.1 (rebuild_numerator hnum letters) (hasFiniteReciprocal_of_dvd hdvd)

/-- The numerator and the denominator of a decimal that fits a double can be written. -/
theorem isShort_of_fitsDouble (hq : 0 < q) (hfits : Decimal.FitsDouble q) {k : ℕ} (hk : k ≤ 3000) (hdvd : q.den ∣ 10 ^ k) :
    IsShort q.num ∧ IsShort q.den := by
  have hden : q.den ≤ 10 ^ k := Nat.le_of_dvd (by positivity) hdvd
  have hden' : (q.den : ℚ) ≤ 10 ^ k := by exact_mod_cast hden
  have hvalue : (q.num.natAbs : ℚ) = q * q.den := (div_eq_iff (by simp)).mp (Decimal.natAbs_div_den hq.le)
  have hless : (q.num.natAbs : ℚ) < 10 ^ (1024 + k) := by
    rw [hvalue, pow_add]
    exact mul_lt_mul hfits.lt hden' (by exact_mod_cast q.den_pos) (by positivity)
  have hlimit : 10 ^ (1024 + k) ≤ 10 ^ digitLimit :=
    Nat.pow_le_pow_right (by decide) ((Nat.add_le_add_left hk 1024).trans (by decide))
  have hproper : 10 ^ k < 10 ^ digitLimit := Nat.pow_lt_pow_right (by decide) (hk.trans_lt (by decide))
  have hnum : q.num.natAbs < 10 ^ (1024 + k) := by exact_mod_cast hless
  exact ⟨isShort_of_natAbs_lt (hnum.trans_le hlimit), isShort_of_lt (hden.trans_lt hproper)⟩

/-! ### The characters of the texts -/

theorem isAlpha_of_isUnknown {c : Char} (h : IsUnknown c.toString) : c.isAlpha = true := by
  obtain ⟨⟨d, hd, heq⟩, -⟩ := h
  obtain rfl : c = d := by simpa using congrArg String.toList heq
  exact hd

theorem mem_chars_quotient {cs : List Char} (hcs : (apply .div [t, u]).chars = .ok cs) : '/' ∈ cs := by
  obtain ⟨implicit, -, ds, -, es, -, rfl⟩ := (chars_operator_eq_ok_iff rfl).mp hcs
  simp [separator]

/-- A product on the right of a product stands in parentheses. -/
theorem mem_chars_nested (h : IsNested u) {cs : List Char} (hcs : (binary .mul t u).chars = .ok cs) : '(' ∈ cs := by
  obtain ⟨v, w, rfl, -, -⟩ := h
  have hright : binary .mul t (binary .mul v w) =
      .apply .mul [parenIf (leftNeedsParen .mul t.stripParens) t.stripParens, .paren (binary .mul v w)] := rfl
  rw [hright, chars_operator_eq_ok_iff rfl] at hcs
  obtain ⟨implicit, -, ds, -, es, hes, rfl⟩ := hcs
  obtain ⟨fs, -, rfl⟩ := chars_paren_eq_ok_iff.mp hes
  simp

/-- A character that is no letter and not written for a product is written in front of the letters, if at all. -/
theorem not_mem_chars_timesLetters (hletters : ∀ e ∈ letters, IsUnknown e.toString) {c : Char} (hc : c.isAlpha = false)
    (hsign : c ≠ ' ' ∧ c ≠ '*') (hplain : t.stripParens = t) (hprecedence : 2 ≤ t.precedence) (ht : ∀ cs, t.chars = .ok cs → c ∉ cs)
    {cs : List Char} (hcs : (timesLetters t letters).chars = .ok cs) : c ∉ cs := by
  induction letters generalizing t with
  | nil => exact ht cs hcs
  | cons e letters ih =>
    obtain ⟨he, hletters⟩ := List.forall_mem_cons.mp hletters
    rw [timesLetters_cons, binary_times hplain hprecedence (.symbol he)] at hcs
    refine ih (t := .apply .mul [t, .symbol e.toString]) hletters rfl (Nat.le_refl 2) (fun ds hds => ?_) hcs
    rw [chars_operator_eq_ok_iff rfl] at hds
    obtain ⟨implicit, -, fs, hfs, gs, hgs, rfl⟩ := hds
    obtain rfl : [e] = gs := by simpa [chars] using hgs
    have hsymbol : c ≠ e := by
      rintro rfl
      exact absurd (isAlpha_of_isUnknown he) (by simp [hc])
    have hseparator : c ∉ separator implicit .mul := by cases implicit <;> simp [separator, hsign]
    simp [ht fs hfs, hseparator, hsymbol]

section Number

variable (hq : 0 < q) (hden : q.den ≠ 1)

include hq hden

theorem exists_numberChars_iff : (∃ cs, numberChars q = .ok cs) ↔ Decimal.FitsDouble q := by
  rw [← Decimal.exists_textOfNearest?_iff hq, numberChars, if_neg hden]
  cases Decimal.textOfNearest? q <;> simp

theorem mem_numberChars {cs : List Char} (hcs : numberChars q = .ok cs) {c : Char} (hc : c ∈ cs) :
    c ∈ ['.', 'e', '-', '+'] ∨ c.isDigit = true := by
  have hprinted := Decimal.printed_textOfNearest? hq
  rw [numberChars, if_neg hden] at hcs
  generalize Decimal.textOfNearest? q = text at hprinted hcs
  cases hprinted with
  | tooLarge => simp at hcs
  | decimal n =>
    obtain rfl := Except.ok.inj hcs
    exact (n.mem_chars hc).imp_left fun hpoint => by simp [hpoint]
  | exponent htext =>
    obtain rfl := Except.ok.inj hcs
    exact Reader.mem_text htext hc

end Number

end Tree

end AlgebraTutor
