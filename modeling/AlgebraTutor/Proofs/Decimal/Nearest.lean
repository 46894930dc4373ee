import Mathlib.Algebra.Order.Field.Power
import Mathlib.Algebra.Order.Field.Rat
import Mathlib.Tactic.FieldSimp
import Mathlib.Tactic.Linarith
import Mathlib.Tactic.NormNum
import Mathlib.Tactic.Positivity
import Mathlib.Tactic.Ring
import AlgebraTutor.Decimal.Shortest

/-!
# What a double is the nearest one of

The rationals that round to a double are an interval around it, half a unit of its last place wide to either side, or a
quarter below a power of two. The interval has its ends if the mantissa is even. A rational lies in the interval of the
double that it is rounded to.
-/

namespace AlgebraTutor.Decimal

theorem zpow_of_neg {b : ℚ} {e : ℤ} (he : e < 0) : b ^ e = (b ^ e.natAbs)⁻¹ := by
  rw [← zpow_natCast, Int.ofNat_natAbs_of_nonpos he.le, zpow_neg, inv_inv]

theorem zpow_of_nonneg {b : ℚ} {e : ℤ} (he : 0 ≤ e) : b ^ e = b ^ e.natAbs := by
  rw [← zpow_natCast, Int.natAbs_of_nonneg he]

/-! ### Rounding a quotient -/

/-- The natural number is nearest to the rational, and even if another one is as near. -/
structure IsNearest (m : ℕ) (u : ℚ) : Prop where
  lower : m - 1 / 2 ≤ u
  upper : u ≤ m + 1 / 2
  tie : u = m - 1 / 2 ∨ u = m + 1 / 2 → m % 2 = 0

theorem isNearest_roundDivEven {n d : ℕ} (hd : 0 < d) : IsNearest (roundDivEven n d) (n / d) := by
  have hd' : (0 : ℚ) < d := by exact_mod_cast hd
  have hratio : (n : ℚ) / d = (n / d : ℕ) + ((n % d : ℕ) : ℚ) / d := by
    have hdivide : (n : ℚ) = d * (n / d : ℕ) + (n % d : ℕ) := by exact_mod_cast (Nat.div_add_mod n d).symm
    field_simp
    linarith
  have hlow : 0 ≤ ((n % d : ℕ) : ℚ) / d := by positivity
  have hhigh : ((n % d : ℕ) : ℚ) / d < 1 := (div_lt_one hd').mpr (by exact_mod_cast Nat.mod_lt n hd)
  have hless : ((n % d : ℕ) : ℚ) / d < 1 / 2 ↔ 2 * (n % d) < d := by
    rw [div_lt_div_iff₀ hd' two_pos]
    norm_cast
    omega
  have hmore : 1 / 2 < ((n % d : ℕ) : ℚ) / d ↔ d < 2 * (n % d) := by
    rw [div_lt_div_iff₀ two_pos hd']
    norm_cast
    omega
  rw [hratio]
  generalize ((n % d : ℕ) : ℚ) / d = rest at hlow hhigh hless hmore
  simp only [roundDivEven, ← hless, ← hmore]
  split_ifs with hdown hup heven
  · exact ⟨by linarith, by linarith, fun htie => by rcases htie with htie | htie <;> linarith⟩
  · refine ⟨by push_cast; linarith, by push_cast; linarith, fun htie => ?_⟩
    push_cast at htie
    rcases htie with htie | htie <;> linarith
  · exact ⟨by linarith, by linarith, fun _ => heven⟩
  · refine ⟨by push_cast; linarith, by push_cast; linarith, fun _ => by omega⟩

/-- A quotient in units of a power of two. -/
theorem inUnits_ratio (num den : ℕ) (e : ℤ) :
    ((inUnits num den e).1 : ℚ) / (inUnits num den e).2 = num / den / 2 ^ e := by
  unfold inUnits
  split_ifs with he
  · rw [zpow_of_neg he, Nat.pow_eq]
    push_cast
    rw [div_inv_eq_mul, mul_div_right_comm]
  · rw [zpow_of_nonneg (not_lt.mp he), Nat.pow_eq]
    push_cast
    rw [div_div]

theorem inUnits_pos {num den : ℕ} (hden : 0 < den) (e : ℤ) : 0 < (inUnits num den e).2 := by
  unfold inUnits
  split_ifs
  · exact hden
  · exact Nat.mul_pos hden (Nat.pow_pos (by decide))

/-! ### The exponent that fits -/

/-- A positive rational in units of `2 ^ e`, `e` the exponent that fits it, is below `2 ^ 53`, and not below `2 ^ 52` unless `e`
is the least exponent. -/
structure Fits (q : ℚ) (e : ℤ) : Prop where
  least : minExponent ≤ e
  upper : q / 2 ^ e < 2 ^ 53
  lower : e = minExponent ∨ 2 ^ 52 ≤ q / 2 ^ e

theorem Fits.max {q : ℚ} {e : ℤ} (hq : 0 < q) (hlower : 2 ^ 52 ≤ q / 2 ^ e) (hupper : q / 2 ^ e < 2 ^ 53) :
    Fits q (max minExponent e) := by
  rcases le_total minExponent e with hle | hle
  · rw [max_eq_right hle]
    exact ⟨hle, hupper, .inr hlower⟩
  · rw [max_eq_left hle]
    have hpower : (2 : ℚ) ^ e ≤ 2 ^ minExponent := zpow_le_zpow_right₀ (by norm_num) hle
    exact ⟨le_rfl, (div_le_div_of_nonneg_left hq.le (by positivity) hpower).trans_lt hupper, .inl rfl⟩

/-- A quotient lies between the powers of two that the numbers of bits suggest. -/
theorem ratio_bounds {num den : ℕ} (hnum : num ≠ 0) (hden : den ≠ 0) :
    (2 : ℚ) ^ ((num.log2 : ℤ) - den.log2 - 1) < num / den ∧ (num : ℚ) / den < 2 ^ ((num.log2 : ℤ) - den.log2 + 1) := by
  have hbits {n : ℕ} (hn : n ≠ 0) : (2 : ℚ) ^ (n.log2 : ℤ) ≤ n ∧ (n : ℚ) < 2 ^ (n.log2 : ℤ) * 2 := by
    rw [zpow_natCast, ← pow_succ]
    exact ⟨by exact_mod_cast Nat.log2_self_le hn, by exact_mod_cast Nat.lt_log2_self⟩
  obtain ⟨hnumLow, hnumHigh⟩ := hbits hnum
  obtain ⟨hdenLow, hdenHigh⟩ := hbits hden
  have hpos : (0 : ℚ) < den := by exact_mod_cast Nat.pos_of_ne_zero hden
  have htwo : (0 : ℚ) < 2 ^ (den.log2 : ℤ) := by positivity
  constructor
  · rw [zpow_sub₀ two_ne_zero, zpow_sub₀ two_ne_zero, zpow_one, div_div, div_lt_div_iff₀ (by positivity) hpos]
    have := mul_lt_mul_of_pos_left hdenHigh (show (0 : ℚ) < num by exact_mod_cast Nat.pos_of_ne_zero hnum)
    nlinarith
  · rw [zpow_add₀ two_ne_zero, zpow_sub₀ two_ne_zero, zpow_one, div_mul_eq_mul_div, div_lt_div_iff₀ hpos htwo]
    have := mul_lt_mul_of_pos_right hnumHigh htwo
    nlinarith

theorem fits_fittingExponent {num den : ℕ} (hnum : num ≠ 0) (hden : den ≠ 0) :
    Fits (num / den) (fittingExponent num den) := by
  have hpos : (0 : ℚ) < (num : ℚ) / den :=
    div_pos (by exact_mod_cast Nat.pos_of_ne_zero hnum) (by exact_mod_cast Nat.pos_of_ne_zero hden)
  obtain ⟨hlow, hhigh⟩ := ratio_bounds hnum hden
  generalize hguess : (num.log2 : ℤ) - den.log2 - 52 = guess
  rw [show (num.log2 : ℤ) - den.log2 - 1 = guess + 51 by omega, zpow_add₀ two_ne_zero] at hlow
  rw [show (num.log2 : ℤ) - den.log2 + 1 = guess + 53 by omega, zpow_add₀ two_ne_zero] at hhigh
  have hless : (inUnits num den guess).1 < 2 ^ 52 * (inUnits num den guess).2 ↔ (num : ℚ) / den / 2 ^ guess < 2 ^ 52 := by
    have hunits : (0 : ℚ) < (inUnits num den guess).2 := by exact_mod_cast inUnits_pos (Nat.pos_of_ne_zero hden) guess
    rw [← inUnits_ratio, div_lt_iff₀ hunits]
    norm_cast
  have htwo : (0 : ℚ) < 2 ^ guess := by positivity
  simp only [fittingExponent, hguess, Nat.pow_eq, hless]
  split_ifs with hsmall
  · have hhalf : (2 : ℚ) ^ (guess - 1) = 2 ^ guess / 2 := by rw [zpow_sub₀ two_ne_zero, zpow_one]
    refine .max hpos ?_ ?_
    · rw [hhalf, le_div_iff₀ (by positivity)]
      norm_num at hlow ⊢
      linarith
    · rw [div_lt_iff₀ htwo] at hsmall
      rw [hhalf, div_lt_iff₀ (by positivity)]
      norm_num at hsmall ⊢
      linarith
  · refine .max hpos (not_lt.mp hsmall) ?_
    rw [div_lt_iff₀ htwo]
    norm_num at hhigh ⊢
    linarith

/-! ### The interval of a double -/

/-- The unit of the last place, in quarters. -/
def Double.quarter (x : Double) : ℚ :=
  2 ^ (x.exponent - 2)

/-- The rational rounds to the double. -/
def Double.Holds (x : Double) (q : ℚ) : Prop :=
  if x.mantissa % 2 = 0 then 4 * x.mantissa - lowerGap x ≤ q / x.quarter ∧ q / x.quarter ≤ 4 * x.mantissa + 2
  else 4 * x.mantissa - lowerGap x < q / x.quarter ∧ q / x.quarter < 4 * x.mantissa + 2

theorem lowerGap_bounds (x : Double) : 1 ≤ lowerGap x ∧ lowerGap x ≤ 2 := by
  unfold lowerGap
  split_ifs <;> decide

theorem Double.quarter_pos (x : Double) : 0 < x.quarter :=
  zpow_pos two_pos _

theorem Double.Holds.bounds {x : Double} {q : ℚ} (h : x.Holds q) :
    4 * x.mantissa - 2 ≤ q / x.quarter ∧ q / x.quarter ≤ 4 * x.mantissa + 2 := by
  have hgap : (lowerGap x : ℚ) ≤ 2 := by exact_mod_cast (lowerGap_bounds x).2
  unfold Holds at h
  split_ifs at h
  · exact ⟨by linarith [h.1], h.2⟩
  · exact ⟨by linarith [h.1], h.2.le⟩

theorem scaled_ratio (quarters : ℕ) (exponent power : ℤ) :
    ((scaled quarters exponent power).1 : ℚ) / (scaled quarters exponent power).2 =
      quarters * 2 ^ (exponent - 2) / 10 ^ power := by
  have hsplit {b : ℕ} (hb : b ≠ 0) (e : ℤ) :
      (b : ℚ) ^ e = ((if 0 < e then b ^ e.natAbs else 1 : ℕ) : ℚ) / (if e < 0 then b ^ e.natAbs else 1 : ℕ) := by
    rcases lt_trichotomy e 0 with he | rfl | he
    · rw [if_neg he.le.not_gt, if_pos he, zpow_of_neg he, Nat.cast_one, one_div, Nat.cast_pow]
    · simp
    · rw [if_pos he, if_neg he.le.not_gt, zpow_of_nonneg he.le, Nat.cast_one, div_one, Nat.cast_pow]
  have htwo := @hsplit 2 two_ne_zero (exponent - 2)
  have hten := @hsplit 10 (by decide) power
  simp only [scaled, Nat.pow_eq]
  push_cast at htwo hten ⊢
  rw [htwo, hten, mul_div_assoc', div_div_div_eq]

theorem scaled_pos (quarters : ℕ) (exponent power : ℤ) : 0 < (scaled quarters exponent power).2 := by
  simp only [scaled, Nat.pow_eq]
  split_ifs <;> positivity

theorem le_scaled_iff {quarters d : ℕ} {exponent power : ℤ} :
    d * (scaled quarters exponent power).2 ≤ (scaled quarters exponent power).1 ↔
      (d : ℚ) * 10 ^ power / 2 ^ (exponent - 2) ≤ quarters := by
  have hpos : (0 : ℚ) < (scaled quarters exponent power).2 := by exact_mod_cast scaled_pos quarters exponent power
  rw [div_le_iff₀ (by positivity), ← le_div_iff₀ (by positivity), ← scaled_ratio, le_div_iff₀ hpos]
  norm_cast

theorem scaled_le_iff {quarters d : ℕ} {exponent power : ℤ} :
    (scaled quarters exponent power).1 ≤ d * (scaled quarters exponent power).2 ↔
      (quarters : ℚ) ≤ d * 10 ^ power / 2 ^ (exponent - 2) := by
  have hpos : (0 : ℚ) < (scaled quarters exponent power).2 := by exact_mod_cast scaled_pos quarters exponent power
  rw [le_div_iff₀ (by positivity), ← div_le_iff₀ (by positivity), ← scaled_ratio, div_le_iff₀ hpos]
  norm_cast

/-- Of a number that is not negative, an end below zero holds as little as zero does. -/
theorem cast_sub_lowerGap_le_iff {x : Double} {u : ℚ} (hu : 0 ≤ u) :
    ((4 * x.mantissa - lowerGap x : ℕ) : ℚ) ≤ u ↔ 4 * x.mantissa - lowerGap x ≤ u := by
  rcases le_or_gt (lowerGap x) (4 * x.mantissa) with hle | hlt
  · rw [Nat.cast_sub hle, Nat.cast_mul, Nat.cast_ofNat]
  · have hlt' : (4 : ℚ) * x.mantissa < lowerGap x := by exact_mod_cast hlt
    rw [Nat.sub_eq_zero_of_le hlt.le, Nat.cast_zero]
    exact ⟨fun _ => by linarith, fun _ => hu⟩

/-- A decimal is taken to read back as a double if it rounds to it. -/
theorem roundsTo_iff {x : Double} {d : ℕ} {power : ℤ} : roundsTo x d power = true ↔ x.Holds (d * 10 ^ power) := by
  simp only [roundsTo, Double.Holds, Double.quarter]
  split_ifs with heven
  · rw [Bool.and_eq_true, decide_eq_true_eq, decide_eq_true_eq, scaled_le_iff, le_scaled_iff,
      cast_sub_lowerGap_le_iff (by positivity)]
    push_cast
    rfl
  · have hle : lowerGap x ≤ 4 * x.mantissa := by have := (lowerGap_bounds x).2; omega
    rw [Bool.and_eq_true, decide_eq_true_eq, decide_eq_true_eq, ← not_le, ← not_le, le_scaled_iff, scaled_le_iff, not_le, not_le,
      Nat.cast_sub hle]
    push_cast
    rfl

/-- The double whose mantissa is nearest to a rational in the unit that fits it; one of 54 bits is a power of two. -/
structure IsRounded (q : ℚ) (x : Double) (m : ℕ) (e : ℤ) : Prop where
  fits : Fits q e
  near : IsNearest m (q / 2 ^ e)
  shape : m = 2 ^ 53 ∧ x = ⟨2 ^ 52, e + 1⟩ ∨ m ≠ 2 ^ 53 ∧ x = ⟨m, e⟩

theorem isRounded_of_nearest {num den : ℕ} {x : Double} (hnum : num ≠ 0) (hden : den ≠ 0) (hx : nearest num den = some x) :
    ∃ m e, IsRounded (num / den) x m e := by
  refine ⟨_, _, fits_fittingExponent hnum hden,
    inUnits_ratio num den _ ▸ isNearest_roundDivEven (inUnits_pos (Nat.pos_of_ne_zero hden) _), ?_⟩
  simp only [nearest, hnum, if_false, Nat.pow_eq] at hx
  split_ifs at hx with hcarry hlarge hlarge
  · exact .inl ⟨hcarry, (Option.some.inj hx).symm⟩
  · exact .inr ⟨hcarry, (Option.some.inj hx).symm⟩

namespace IsRounded

variable {q : ℚ} {x : Double} {m : ℕ} {e : ℤ} (h : IsRounded q x m e)

include h

/-- The mantissa that is nearest has 53 bits, or is the least number of 54, or belongs to the least exponent. -/
theorem mantissa_bounds : m ≤ 2 ^ 53 ∧ (e = minExponent ∨ 2 ^ 52 ≤ m) := by
  constructor
  · have hlt : (m : ℚ) < 2 ^ 53 + 1 := by linarith [h.near.lower, h.fits.upper]
    exact Nat.lt_succ_iff.mp (by exact_mod_cast hlt)
  · refine h.fits.lower.imp_right fun hlower => ?_
    have hlt : (2 : ℚ) ^ 52 < m + 1 := by linarith [h.near.upper]
    exact Nat.lt_succ_iff.mp (by exact_mod_cast hlt)

theorem mantissa : x.mantissa < 2 ^ 53 ∧ (x.exponent = minExponent ∨ 2 ^ 52 ≤ x.mantissa) := by
  obtain ⟨hupper, hlower⟩ := h.mantissa_bounds
  rcases h.shape with ⟨-, rfl⟩ | ⟨hne, rfl⟩
  · exact ⟨by norm_num, .inr le_rfl⟩
  · exact ⟨lt_of_le_of_ne hupper hne, hlower⟩

/-- A rational rounds to the double that is found for it. -/
theorem holds (hq : 0 ≤ q) : x.Holds q := by
  have hpos : 0 ≤ q / 2 ^ e := by positivity
  obtain ⟨hlower, hupper, htie⟩ := h.near
  have hless := h.fits.upper
  rcases h.shape with ⟨hcarry, rfl⟩ | ⟨hne, rfl⟩
  · -- rounded up to a power of two, below which the interval is only half as wide
    have hgap : lowerGap ⟨2 ^ 52, e + 1⟩ = 1 := if_pos ⟨rfl, Int.lt_add_one_of_le h.fits.least⟩
    have hquarter : q / Double.quarter ⟨2 ^ 52, e + 1⟩ = 2 * (q / 2 ^ e) := by
      rw [Double.quarter, show e + 1 - 2 = e - 1 by omega, zpow_sub₀ two_ne_zero, zpow_one, div_div_eq_mul_div, mul_comm,
        mul_div_assoc]
    have heven : 2 ^ 52 % 2 = 0 := Nat.mod_eq_zero_of_dvd (dvd_pow_self 2 (by decide))
    rw [Double.Holds, if_pos heven, hquarter, hgap]
    rw [hcarry] at hlower
    generalize q / 2 ^ e = u at *
    push_cast at hlower ⊢
    constructor <;> linarith
  · have hquarter : q / Double.quarter ⟨m, e⟩ = 4 * (q / 2 ^ e) := by
      rw [Double.quarter, zpow_sub₀ two_ne_zero, div_div_eq_mul_div, mul_comm, mul_div_assoc]
      norm_num
    have hgap : lowerGap ⟨m, e⟩ = 1 ∧ (m : ℚ) ≤ q / 2 ^ e ∨ lowerGap ⟨m, e⟩ = 2 := by
      unfold lowerGap
      split_ifs with hleast
      · obtain ⟨hm, he⟩ := hleast
        have hlow := h.fits.lower.resolve_left he.ne'
        refine .inl ⟨rfl, ?_⟩
        rw [show m = 2 ^ 52 from hm]
        exact_mod_cast hlow
      · exact .inr rfl
    rw [Double.Holds, hquarter]
    generalize q / 2 ^ e = u at *
    split_ifs with heven
    · refine ⟨?_, by linarith⟩
      rcases hgap with ⟨hgap, hm⟩ | hgap <;> rw [hgap] <;> push_cast <;> linarith
    · have hstrict : u ≠ m - 1 / 2 ∧ u ≠ m + 1 / 2 := ⟨fun hu => heven (htie (.inl hu)), fun hu => heven (htie (.inr hu))⟩
      have hbelow := lt_of_le_of_ne hlower hstrict.1.symm
      have habove := lt_of_le_of_ne hupper hstrict.2
      refine ⟨?_, by linarith⟩
      rcases hgap with ⟨hgap, hm⟩ | hgap <;> rw [hgap] <;> push_cast <;> linarith

end IsRounded

end AlgebraTutor.Decimal
