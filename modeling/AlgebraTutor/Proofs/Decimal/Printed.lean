import AlgebraTutor.Proofs.Decimal.Written

/-!
# Which numbers are printed exactly

The text of a number is that of the nearest double. It writes the number itself if the shortest decimal of that double is the
number and of a size that is written without an exponent, as every decimal of at most fifteen digits is that is not
below `0.0001`.
-/

namespace AlgebraTutor.Decimal

open Text (DecimalNumeral)

/-- The shortest decimal of the nearest double is the number, and is written without an exponent. -/
def PrintsExactly (q : ℚ) : Prop :=
  ∃ x, nearest q.num.natAbs q.den = some x ∧ (shortest x).value = q ∧ 1 / 10 ^ 4 ≤ q ∧ q < 10 ^ 16

/-- The number is below the ones that round to more than the largest double. -/
def FitsDouble (q : ℚ) : Prop :=
  q < (2 ^ 54 - 1) * 2 ^ 970

section Nearest

variable {q : ℚ} {x : Double}

theorem natAbs_div_den (hq : 0 ≤ q) : (q.num.natAbs : ℚ) / q.den = q := by
  rw [Nat.cast_natAbs, abs_of_nonneg (Rat.num_nonneg.mpr hq), Rat.num_div_den]

theorem exists_isRounded (hq : 0 < q) (hx : nearest q.num.natAbs q.den = some x) : ∃ m e, IsRounded q x m e := by
  have hnum : q.num.natAbs ≠ 0 := Int.natAbs_ne_zero.mpr (Rat.num_pos.mpr hq).ne'
  have hround := isRounded_of_nearest hnum q.den_nz hx
  rwa [natAbs_div_den hq.le] at hround

/-- A number that is not below `0.0001` has a nearest double of full precision. -/
theorem le_mantissa (hx : nearest q.num.natAbs q.den = some x) (hq : 1 / 10 ^ 4 ≤ q) : 2 ^ 52 ≤ x.mantissa := by
  have hpos : 0 < q := lt_of_lt_of_le (by norm_num) hq
  obtain ⟨m, e, hround⟩ := exists_isRounded hpos hx
  obtain ⟨hless, hleast | hmore⟩ := hround.mantissa
  · have hmantissa : (x.mantissa : ℚ) + 1 ≤ 2 ^ 53 := by exact_mod_cast hless
    have hquarter : x.quarter ≤ 2 ^ (-70 : ℤ) := by
      rw [Double.quarter, hleast]
      exact zpow_le_zpow_right₀ one_le_two (by decide)
    have hbound := (hround.holds hpos.le).bounds.2
    rw [div_le_iff₀ x.quarter_pos] at hbound
    have hsmall : q ≤ 4 * 2 ^ 53 * 2 ^ (-70 : ℤ) := by
      refine hbound.trans (mul_le_mul (by linarith) hquarter x.quarter_pos.le (by positivity))
    norm_num at hsmall hq
    linarith
  · exact hmore

theorem fitsDouble_iff_lt : FitsDouble q ↔ q < (2 ^ 53 - 1 / 2) * 2 ^ maxExponent := by
  have hpower : (2 : ℚ) ^ maxExponent = 2 ^ 970 * 2 := by
    rw [← pow_succ]
    exact zpow_natCast 2 971
  have hbound : ((2 : ℚ) ^ 53 - 1 / 2) * 2 ^ maxExponent = (2 ^ 54 - 1) * 2 ^ 970 := by
    rw [hpower]
    generalize (2 : ℚ) ^ 970 = p
    ring
  rw [hbound, FitsDouble]

/-- Whether a number fits shows in the exponent that fits it and, at the greatest one, in the mantissa: one that is rounded up
to 54 bits is too large. -/
theorem fitsDouble_iff {m : ℕ} {e : ℤ} (hfits : Fits q e) (hnear : IsNearest m (q / 2 ^ e)) :
    FitsDouble q ↔ e < maxExponent ∨ e = maxExponent ∧ m ≠ 2 ^ 53 := by
  have hunit : (0 : ℚ) < 2 ^ maxExponent := by positivity
  rw [fitsDouble_iff_lt]
  rcases lt_trichotomy e maxExponent with hlt | rfl | hgt
  · have hless := hfits.upper
    have hhalf : (2 : ℚ) ^ e * 2 ≤ 2 ^ maxExponent := by
      rw [← zpow_add_one₀ two_ne_zero]
      exact zpow_le_zpow_right₀ one_le_two hlt
    rw [div_lt_iff₀ (by positivity)] at hless
    exact iff_of_true (by linarith) (.inl hlt)
  · rw [← div_lt_iff₀ hunit, or_iff_right (lt_irrefl _), and_iff_right rfl]
    constructor
    · rintro hless rfl
      have hlower := hnear.lower
      push_cast at hlower
      linarith
    · intro hne
      have hmost : m + 1 ≤ 2 ^ 53 := by
        have hlt : (m : ℚ) < 2 ^ 53 + 1 := by linarith [hnear.lower, hfits.upper]
        have hle : m ≤ 2 ^ 53 := Nat.lt_succ_iff.mp (by exact_mod_cast hlt)
        omega
      have hmost' : (m : ℚ) + 1 ≤ 2 ^ 53 := by exact_mod_cast hmost
      refine lt_of_le_of_ne (by linarith [hnear.upper]) fun heq => ?_
      -- the bound is a tie, which goes to the even mantissa
      have hm : (m : ℚ) + 1 = 2 ^ 53 := by linarith [hnear.upper]
      have hodd : m + 1 = 2 ^ 53 := by exact_mod_cast hm
      have heven := hnear.tie (.inr (by linarith))
      omega
  · have hleast : minExponent < e := lt_trans (by decide) hgt
    have hmore := hfits.lower.resolve_left hleast.ne'
    have hdouble : (2 : ℚ) ^ maxExponent * 2 ≤ 2 ^ e := by
      rw [← zpow_add_one₀ two_ne_zero]
      exact zpow_le_zpow_right₀ one_le_two hgt
    rw [le_div_iff₀ (by positivity)] at hmore
    refine iff_of_false (by linarith) ?_
    rintro (hlt | ⟨rfl, -⟩)
    · exact lt_asymm hlt hgt
    · exact lt_irrefl _ hgt

theorem FitsDouble.lt (h : FitsDouble q) : q < 10 ^ 1024 := by
  have htwos : (2 : ℚ) ^ 1024 = 2 ^ 54 * 2 ^ 970 := by rw [← pow_add]
  have htens : (2 : ℚ) ^ 1024 ≤ 10 ^ 1024 := pow_le_pow_left₀ (by norm_num) (by norm_num) 1024
  have hpower : (0 : ℚ) < 2 ^ 970 := by positivity
  have hless : ((2 : ℚ) ^ 54 - 1) * 2 ^ 970 ≤ 2 ^ 54 * 2 ^ 970 := mul_le_mul_of_nonneg_right (by norm_num) hpower.le
  exact (h.trans_le hless).trans_le (htwos.symm.trans_le htens)

theorem fitsDouble_of_lt (hq : q < 10 ^ 300) : FitsDouble q := by
  have htens : (10 : ℚ) ^ 300 ≤ 2 ^ 1000 := by
    rw [show 300 = 3 * 100 from rfl, show 1000 = 10 * 100 from rfl, pow_mul, pow_mul]
    exact pow_le_pow_left₀ (by positivity) (by norm_num) 100
  have htwos : (2 : ℚ) ^ 1000 = 2 ^ 30 * 2 ^ 970 := by rw [← pow_add]
  have hpower : (0 : ℚ) < 2 ^ 970 := by positivity
  have hless : (2 : ℚ) ^ 30 * 2 ^ 970 ≤ (2 ^ 54 - 1) * 2 ^ 970 := mul_le_mul_of_nonneg_right (by norm_num) hpower.le
  exact (hq.trans_le (htens.trans_eq htwos)).trans_le hless

/-- A positive rational has a nearest double exactly if it rounds to no more than the largest one. -/
theorem exists_nearest_iff (hpos : 0 < q) : (∃ x, nearest q.num.natAbs q.den = some x) ↔ FitsDouble q := by
  have hnum : q.num.natAbs ≠ 0 := Int.natAbs_ne_zero.mpr (Rat.num_pos.mpr hpos).ne'
  have hfits := fits_fittingExponent hnum q.den_nz
  rw [natAbs_div_den hpos.le] at hfits
  simp only [nearest, hnum, if_false, Nat.pow_eq]
  generalize fittingExponent q.num.natAbs q.den = e at hfits ⊢
  have hnear : IsNearest (roundDivEven (inUnits q.num.natAbs q.den e).1 (inUnits q.num.natAbs q.den e).2) (q / 2 ^ e) := by
    have hrounded := @isNearest_roundDivEven (inUnits q.num.natAbs q.den e).1 (inUnits q.num.natAbs q.den e).2
      (inUnits_pos q.den_pos e)
    rwa [inUnits_ratio, natAbs_div_den hpos.le] at hrounded
  generalize roundDivEven _ _ = m at hnear ⊢
  rw [fitsDouble_iff hfits hnear]
  split_ifs with hcarry hlarge hlarge <;> dsimp only at hlarge
  · exact iff_of_false (by simp) (by omega)
  · exact iff_of_true ⟨_, rfl⟩ (by omega)
  · exact iff_of_false (by simp) (by omega)
  · exact iff_of_true ⟨_, rfl⟩ (by omega)

theorem exists_textOfNearest?_iff (hpos : 0 < q) : (∃ text, textOfNearest? q = some text) ↔ FitsDouble q := by
  simp only [textOfNearest?, Option.map_eq_some_iff, ← exists_nearest_iff hpos]
  exact ⟨fun ⟨_, x, hx, _⟩ => ⟨x, hx⟩, fun ⟨x, hx⟩ => ⟨_, x, hx, rfl⟩⟩

end Nearest

/-- A decimal of at most fifteen digits is printed exactly if it is of a size that is written without an exponent. -/
theorem printsExactly_of_lt {m : ℕ} {power : ℤ} (hm : m < 10 ^ 15) {q : ℚ} (hq : q = m * 10 ^ power) (hlow : 1 / 10 ^ 4 ≤ q)
    (hhigh : q < 10 ^ 16) : PrintsExactly q := by
  have hpos : 0 < q := lt_of_lt_of_le (by norm_num) hlow
  obtain ⟨x, hx⟩ := (exists_nearest_iff hpos).mpr (fitsDouble_of_lt (hhigh.trans_le (pow_le_pow_right₀ (by norm_num) (by decide))))
  obtain ⟨k, e, hround⟩ := exists_isRounded hpos hx
  have hholds := hround.holds hpos.le
  refine ⟨x, hx, ?_, hlow, hhigh⟩
  rw [hq] at hholds ⊢
  exact shortest_value (le_mantissa hx hlow) hm hholds

/-- What the text of a number looks like: there is none, or it is a decimal, which writes the number if the number is printed
exactly, or it has an exponent. -/
inductive Printed (q : ℚ) : Option (List Char) → Prop
  | tooLarge (h : ¬PrintsExactly q) : Printed q none
  | decimal (n : DecimalNumeral) (hshort : n.IsShort) (h : n.value = q ↔ PrintsExactly q) : Printed q (some n.chars)
  | exponent {text ds : List Char} {first sign : Char} {k : ℕ} (htext : HasExponent text first ds sign k) (h : ¬PrintsExactly q) :
    Printed q (some text)

theorem printed_textOfNearest? {q : ℚ} (hq : 0 < q) : Printed q (textOfNearest? q) := by
  have hsign : ¬q.num < 0 := not_lt.mpr (Rat.num_nonneg.mpr hq.le)
  cases hx : nearest q.num.natAbs q.den with
  | none =>
    rw [textOfNearest?, hx]
    exact .tooLarge fun ⟨x, hnearest, _⟩ => by simp [hx] at hnearest
  | some x =>
    have hiff : PrintsExactly q ↔ (shortest x).value = q ∧ 1 / 10 ^ 4 ≤ q ∧ q < 10 ^ 16 :=
      ⟨fun ⟨y, hy, hprints⟩ => Option.some.inj (hx.symm.trans hy) ▸ hprints, fun hprints => ⟨x, hx, hprints⟩⟩
    rw [textOfNearest?, hx, Option.map_some, if_neg hsign, List.nil_append]
    split_ifs with hzero
    · have hvalue : Text.numeralValue 10 ['0', '0'] = 0 := rfl
      refine .decimal ⟨['0'], ['0'], by simp, by simp, by simp, by simp⟩ ⟨by decide, by decide⟩ (iff_of_false ?_ fun h => ?_)
      · simpa [DecimalNumeral.value, hvalue] using hq.ne
      · have hfull := le_mantissa hx (hiff.mp h).2.1
        omega
    · obtain ⟨hdigits, hless⟩ := shortest_digits_bounds hzero
      by_cases hrange : 1 / 10 ^ 4 ≤ (shortest x).value ∧ (shortest x).value < 10 ^ 16
      · obtain ⟨n, htext, hvalue, hwhole, hfraction⟩ := render_positional hdigits.ne' hrange
        have hcount : digitCount (shortest x).digits ≤ 20 := (Nat.length_toDigits_le_iff (by decide) (by decide)).mpr hless
        have hlimit : 36 ≤ Tree.digitLimit := by decide
        rw [htext]
        refine .decimal n ⟨by omega, by omega⟩ ?_
        rw [hiff, hvalue]
        exact ⟨fun heq => ⟨heq, heq ▸ hrange⟩, And.left⟩
      · obtain ⟨first, ds, sign, k, htext⟩ := render_exponent hdigits.ne' hrange
        refine .exponent htext fun h => hrange ?_
        obtain ⟨heq, hbounds⟩ := hiff.mp h
        rwa [heq]

end AlgebraTutor.Decimal
