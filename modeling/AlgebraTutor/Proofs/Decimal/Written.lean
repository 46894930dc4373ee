import AlgebraTutor.Proofs.Decimal.Shortest
import AlgebraTutor.Proofs.Text.Decimal
import AlgebraTutor.Proofs.Text.Digit

/-!
# How a decimal is laid out

A decimal from `0.0001` to below `10 ^ 16` is written with a point and digits on both sides of it, and this writes its value.
Any other one is written as a number between one and ten and an exponent.
-/

namespace AlgebraTutor.Decimal

open Text (numeralValue DecimalNumeral)

/-- A row of digits that does not begin with a zero, and the power of ten of the last one. -/
structure Significant (ds : List Char) (power : ℤ) (value : ℚ) : Prop where
  isDigit : ∀ c ∈ ds, c.isDigit = true
  ne_nil : ds ≠ []
  head : ds.head? ≠ some '0'
  value_eq : value = numeralValue 10 ds * 10 ^ power

theorem exists_trailing_zeros (text : List Char) :
    ∃ zeros, text = (text.reverse.dropWhile (· == '0')).reverse ++ List.replicate zeros '0' := by
  have hzeros : ∀ c ∈ (text.reverse.takeWhile (· == '0')).reverse, c = '0' := fun c hc =>
    beq_iff_eq.mp (List.mem_takeWhile_imp (p := (· == '0')) (List.mem_reverse.mp hc))
  refine ⟨(text.reverse.takeWhile (· == '0')).reverse.length, ?_⟩
  rw [← List.eq_replicate_of_mem hzeros, ← List.reverse_append, List.takeWhile_append_dropWhile, List.reverse_reverse]

theorem numeralValue_replicate_zero (ds : List Char) (n : ℕ) :
    numeralValue 10 (ds ++ List.replicate n '0') = numeralValue 10 ds * 10 ^ n := by
  rw [Text.numeralValue_append, Text.numeralValue_zeros fun c hc => List.eq_of_mem_replicate hc, List.length_replicate,
    Nat.add_zero]

theorem significant_spec {d : Digits} (hd : d.digits ≠ 0) :
    Significant (significant d).1 (significant d).2 d.value ∧ (significant d).1.length ≤ digitCount d.digits := by
  obtain ⟨zeros, htext⟩ := exists_trailing_zeros (Nat.toDigits 10 d.digits)
  have hdigits : ∀ c ∈ Nat.toDigits 10 d.digits, c.isDigit = true := fun c hc => Text.isDigit_of_mem_digits hc
  have hhead := Text.head?_digits hd
  have hvalue := Text.numeralValue_digits d.digits
  simp only [significant, digitCount]
  generalize ((Nat.toDigits 10 d.digits).reverse.dropWhile (· == '0')).reverse = ds at *
  rw [htext] at hdigits hhead hvalue ⊢
  rw [numeralValue_replicate_zero] at hvalue
  have hne : ds ≠ [] := by
    rintro rfl
    rw [Text.numeralValue_zeros (by simp), Nat.zero_mul] at hvalue
    exact hd hvalue.symm
  refine ⟨⟨fun c hc => hdigits c (List.mem_append_left _ hc), hne, ?_, ?_⟩, by simp⟩
  · rwa [List.head?_append_of_ne_nil _ hne] at hhead
  · rw [Digits.value, ← hvalue, List.length_append, Nat.add_sub_cancel_left, List.length_replicate, zpow_add₀ (by norm_num),
      zpow_natCast]
    push_cast
    ring

namespace Significant

variable {ds : List Char} {power : ℤ} {value : ℚ} (h : Significant ds power value)

include h

/-- The first digit stands at the power of ten of the decade of the value. -/
theorem decade : (10 : ℚ) ^ (power + ds.length - 1) ≤ value ∧ value < 10 ^ (power + ds.length) := by
  obtain ⟨c, cs, rfl⟩ := List.exists_cons_of_ne_nil h.ne_nil
  have hpower : (0 : ℚ) < 10 ^ power := by positivity
  have hless : numeralValue 10 (c :: cs) < 10 ^ (c :: cs).length :=
    Text.numeralValue_lt fun e he => Text.digitValue_lt_ten (h.isDigit e he)
  have hmore : 10 ^ cs.length ≤ numeralValue 10 (c :: cs) := by
    have hfirst : 1 ≤ Text.digitValue c :=
      Text.digitValue_pos (h.isDigit c List.mem_cons_self) fun hc => h.head (by rw [hc]; rfl)
    exact (Nat.le_mul_of_pos_left _ hfirst).trans (Text.le_numeralValue c cs)
  rw [h.value_eq, List.length_cons, Nat.cast_succ, add_sub_assoc, add_sub_cancel_right]
  rw [zpow_add₀ (by norm_num), ← Nat.cast_succ, zpow_add₀ (by norm_num), zpow_natCast, zpow_natCast, mul_comm,
    mul_comm (10 ^ power)]
  constructor
  · exact mul_le_mul_of_nonneg_right (by exact_mod_cast hmore) hpower.le
  · exact mul_lt_mul_of_pos_right (by exact_mod_cast hless) hpower

/-- The place of the first digit says whether the value is between the bounds within which it is written positionally. -/
theorem first_iff : (standardLayout.least ≤ power + ds.length - 1 ∧ power + ds.length - 1 < standardLayout.limit) ↔
    1 / 10 ^ 4 ≤ value ∧ value < 10 ^ 16 := by
  change (-4 ≤ _ ∧ _ < 16) ↔ _
  obtain ⟨hlow, hhigh⟩ := h.decade
  have hone : (1 : ℚ) < 10 := by norm_num
  have hfour : (1 : ℚ) / 10 ^ 4 = 10 ^ (-4 : ℤ) := by norm_num
  have hsixteen : (10 : ℚ) ^ 16 = 10 ^ (16 : ℤ) := by norm_num
  rw [hfour, hsixteen]
  refine and_congr ⟨fun hle => ?_, fun hle => ?_⟩ ⟨fun hlt => ?_, fun hlt => ?_⟩
  · exact (zpow_le_zpow_right₀ hone.le hle).trans hlow
  · have := (zpow_lt_zpow_iff_right₀ hone).mp (hle.trans_lt hhigh)
    omega
  · exact hhigh.trans_le (zpow_le_zpow_right₀ hone.le (by omega))
  · exact (zpow_lt_zpow_iff_right₀ hone).mp (hlow.trans_lt hlt)

end Significant

/-! ### Positional texts -/

theorem numeralValue_zeros_append {zeros : List Char} (hzeros : ∀ c ∈ zeros, c = '0') (ds : List Char) :
    numeralValue 10 (zeros ++ ds) = numeralValue 10 ds := by
  rw [Text.numeralValue_append, Text.numeralValue_zeros hzeros, Nat.zero_mul, Nat.zero_add]

/-- The text has at most so many digits on each side of a point, and they write the value. -/
def IsPositional (text : List Char) (value : ℚ) (most : ℕ) : Prop :=
  ∃ n : DecimalNumeral, text = n.chars ∧ n.value = value ∧ n.whole.length ≤ most ∧ n.fraction.length ≤ most

theorem IsPositional.mono {text : List Char} {value : ℚ} {k m : ℕ} (h : IsPositional text value k) (hle : k ≤ m) :
    IsPositional text value m :=
  h.imp fun _ ⟨htext, hvalue, hwhole, hfraction⟩ => ⟨htext, hvalue, hwhole.trans hle, hfraction.trans hle⟩

section Positional

variable {ds : List Char} (hdigits : ∀ c ∈ ds, c.isDigit = true)

include hdigits

theorem isPositional_point_within {places : ℕ} (hpos : 0 < places) (hlt : places < ds.length) :
    IsPositional (ds.take (ds.length - places) ++ '.' :: ds.drop (ds.length - places)) (numeralValue 10 ds * (10 ^ places)⁻¹)
      ds.length := by
  have hfraction : (ds.drop (ds.length - places)).length = places := by
    rw [List.length_drop]
    omega
  have hwhole : (ds.take (ds.length - places)).length = ds.length - places := by
    rw [List.length_take]
    omega
  refine ⟨⟨ds.take (ds.length - places), ds.drop (ds.length - places), List.ne_nil_of_length_pos (by omega),
    List.ne_nil_of_length_pos (by omega), fun c hc => hdigits c (List.mem_of_mem_take hc),
    fun c hc => hdigits c (List.mem_of_mem_drop hc)⟩, rfl, ?_, hwhole.trans_le (Nat.sub_le _ _), hfraction.trans_le hlt.le⟩
  rw [DecimalNumeral.value, List.take_append_drop, hfraction, div_eq_mul_inv]

variable (hne : ds ≠ [])

include hne

theorem isPositional_zeros_behind (k : ℕ) :
    IsPositional (ds ++ List.replicate k '0' ++ ['.', '0']) (numeralValue 10 ds * 10 ^ k) (ds.length + k) := by
  have hwhole : ∀ c ∈ ds ++ List.replicate k '0', c.isDigit = true :=
    List.forall_mem_append.mpr ⟨hdigits, fun c hc => List.eq_of_mem_replicate hc ▸ rfl⟩
  have hconcat : ds ++ List.replicate k '0' ++ ['0'] = ds ++ List.replicate (k + 1) '0' := by
    rw [List.append_assoc, ← List.replicate_succ']
  have hpos : 0 < ds.length := List.length_pos_of_ne_nil hne
  refine ⟨⟨ds ++ List.replicate k '0', ['0'], by simp [hne], by simp, hwhole, by simp⟩, rfl, ?_, by simp, ?_⟩
  · rw [DecimalNumeral.value, hconcat, numeralValue_replicate_zero, List.length_singleton]
    push_cast
    ring
  · rw [List.length_singleton]
    omega

theorem isPositional_zeros_before (k : ℕ) :
    IsPositional ('0' :: '.' :: List.replicate k '0' ++ ds) (numeralValue 10 ds * (10 ^ (k + ds.length))⁻¹) (k + ds.length) := by
  have hdecimals : ∀ c ∈ List.replicate k '0' ++ ds, c.isDigit = true :=
    List.forall_mem_append.mpr ⟨fun c hc => List.eq_of_mem_replicate hc ▸ rfl, hdigits⟩
  have hlength : (List.replicate k '0' ++ ds).length = k + ds.length := by
    rw [List.length_append, List.length_replicate]
  have hpos : 0 < ds.length := List.length_pos_of_ne_nil hne
  refine ⟨⟨['0'], List.replicate k '0' ++ ds, by simp, by simp [hne], by simp, hdecimals⟩, rfl, ?_, ?_, hlength.le⟩
  · rw [DecimalNumeral.value, hlength, numeralValue_zeros_append (by simp), numeralValue_zeros_append (by simp), div_eq_mul_inv]
  · rw [List.length_singleton]
    omega

end Positional

/-- A decimal between the bounds is written with digits on both sides of a point, and they write its value. -/
theorem render_positional {d : Digits} (hd : d.digits ≠ 0) (hrange : 1 / 10 ^ 4 ≤ d.value ∧ d.value < 10 ^ 16) :
    IsPositional (d.render standardLayout) d.value (digitCount d.digits + 16) := by
  obtain ⟨hspec, hlength⟩ := significant_spec hd
  have hfirst := hspec.first_iff.mpr hrange
  obtain ⟨hdigits, hne, -, hvalue⟩ := hspec
  simp only [Digits.render]
  rw [if_pos hfirst, hvalue]
  generalize (significant d).1 = ds at *
  generalize (significant d).2 = power at *
  have hbounds : -4 ≤ power + ds.length - 1 ∧ power + ds.length - 1 < 16 := hfirst
  split_ifs with hwhole hpoint
  · obtain ⟨k, rfl⟩ := Int.eq_ofNat_of_zero_le hwhole
    rw [zpow_natCast]
    exact (isPositional_zeros_behind hdigits hne k).mono (by omega)
  · have hplace : (power + ds.length - 1).natAbs + 1 = ds.length - power.natAbs := by omega
    rw [hplace, zpow_of_neg (not_le.mp hwhole)]
    exact (isPositional_point_within hdigits (by omega) (by omega)).mono (by omega)
  · have hplaces : power.natAbs = (power + ds.length - 1).natAbs - 1 + ds.length := by omega
    rw [zpow_of_neg (not_le.mp hwhole), hplaces]
    exact (isPositional_zeros_before hdigits hne _).mono (by omega)

/-! ### Texts with an exponent -/

/-- The digits of a number between one and ten, with a point behind the first one if there are more. -/
def mantissaChars (first : Char) : List Char → List Char
  | [] => [first]
  | ds => first :: '.' :: ds

/-- The digits of an exponent, at least two of them. -/
def exponentChars (k : ℕ) : List Char :=
  if k < 10 then '0' :: Nat.toDigits 10 k else Nat.toDigits 10 k

theorem padded_eq (k : ℕ) :
    List.replicate (2 - (Nat.toDigits 10 k).length) '0' ++ Nat.toDigits 10 k = exponentChars k := by
  have hone : 1 ≤ (Nat.toDigits 10 k).length := List.length_pos_of_ne_nil Nat.toDigits_ne_nil
  have hlimit : (Nat.toDigits 10 k).length ≤ 1 ↔ k < 10 ^ 1 := Nat.length_toDigits_le_iff (by decide) (by decide)
  unfold exponentChars
  split_ifs with hk
  · rw [show 2 - (Nat.toDigits 10 k).length = 1 by omega]
    rfl
  · rw [show 2 - (Nat.toDigits 10 k).length = 0 by omega]
    rfl

/-- The text writes a number between one and ten and an exponent that is too large, or too small, for a positional text. -/
structure HasExponent (text : List Char) (first : Char) (ds : List Char) (sign : Char) (k : ℕ) : Prop where
  text_eq : text = mantissaChars first ds ++ 'e' :: sign :: exponentChars k
  first_isDigit : first.isDigit = true
  first_ne_zero : first ≠ '0'
  isDigit : ∀ c ∈ ds, c.isDigit = true
  sign : sign = '-' ∨ sign = '+'
  large : 5 ≤ k

theorem render_exponent {d : Digits} (hd : d.digits ≠ 0) (hrange : ¬(1 / 10 ^ 4 ≤ d.value ∧ d.value < 10 ^ 16)) :
    ∃ first ds sign k, HasExponent (d.render standardLayout) first ds sign k := by
  obtain ⟨hspec, -⟩ := significant_spec hd
  have hfirst := mt hspec.first_iff.mp hrange
  simp only [Digits.render]
  rw [if_neg hfirst]
  obtain ⟨hdigits, hne, hhead, -⟩ := hspec
  generalize (significant d).1 = ds at *
  generalize (significant d).2 = power at *
  obtain ⟨c, cs, rfl⟩ := List.exists_cons_of_ne_nil hne
  have hbounds : ¬(-4 ≤ power + (c :: cs).length - 1 ∧ power + (c :: cs).length - 1 < 16) := hfirst
  have hlarge : 5 ≤ (power + (c :: cs).length - 1).natAbs := by omega
  generalize power + (c :: cs).length - 1 = first at *
  refine ⟨c, cs, if first < 0 then '-' else '+', first.natAbs, ?_, hdigits c List.mem_cons_self,
    fun hc => hhead (by rw [hc]; rfl), fun e he => hdigits e (List.mem_cons_of_mem c he), ?_, hlarge⟩
  · rw [← padded_eq]
    cases cs <;> rfl
  · split_ifs <;> simp

end AlgebraTutor.Decimal
