import AlgebraTutor.Proofs.Decimal.Nearest
import Mathlib.Algebra.Order.Floor.Semifield
import Mathlib.Data.Rat.Floor

/-!
# The shortest decimal

The search goes from a coarse grid to finer ones. A grid with a point that rounds to the double is not passed over, since one
of the neighbours of the double then rounds to it as well. A decimal of at most fifteen digits is alone in the interval of its
double on every grid that is not finer than its own, so it is what the search finds.
-/

namespace AlgebraTutor.Decimal

/-- The value of a decimal. -/
def Digits.value (d : Digits) : ℚ :=
  d.digits * 10 ^ d.power

theorem Double.toRat_eq (x : Double) : x.toRat = 4 * x.mantissa * x.quarter := by
  have hvalue : x.toRat = x.mantissa * 2 ^ x.exponent := by
    unfold toRat
    split_ifs with he
    · rw [zpow_of_neg he, Rat.mkRat_eq_div, Nat.pow_eq]
      push_cast
      rw [div_eq_mul_inv]
    · rw [zpow_of_nonneg (not_lt.mp he), Nat.pow_eq]
      push_cast
      rfl
  rw [hvalue, quarter, zpow_sub₀ two_ne_zero]
  norm_num
  ring

theorem Double.toRat_pos {x : Double} (hx : x.mantissa ≠ 0) : 0 < x.toRat := by
  rw [toRat_eq]
  exact mul_pos (mul_pos (by norm_num) (by exact_mod_cast Nat.pos_of_ne_zero hx)) x.quarter_pos

/-- A double in units of a power of ten. -/
theorem scaled_toRat (x : Double) (power : ℤ) :
    ((scaled (4 * x.mantissa) x.exponent power).1 : ℚ) / (scaled (4 * x.mantissa) x.exponent power).2 = x.toRat / 10 ^ power := by
  rw [scaled_ratio, x.toRat_eq, Double.quarter]
  push_cast
  rfl

theorem floor_toRat (x : Double) (power : ℤ) :
    (scaled (4 * x.mantissa) x.exponent power).1 / (scaled (4 * x.mantissa) x.exponent power).2 = ⌊x.toRat / 10 ^ power⌋₊ := by
  rw [← scaled_toRat, Nat.floor_div_eq_div]

/-! ### The first digit -/

theorem exists_digitCount {n : ℕ} (hn : n ≠ 0) : ∃ k, digitCount n = k + 1 ∧ 10 ^ k ≤ n ∧ n < 10 ^ (k + 1) := by
  have hpos : 0 < digitCount n := List.length_pos_of_ne_nil Nat.toDigits_ne_nil
  obtain ⟨k, hk⟩ := Nat.exists_eq_add_of_le' hpos
  have hlimit (m : ℕ) (hm : 0 < m) : digitCount n ≤ m ↔ n < 10 ^ m := Nat.length_toDigits_le_iff (by decide) hm
  refine ⟨k, hk, not_lt.mp fun hlt => ?_, (hlimit (k + 1) k.succ_pos).mp hk.le⟩
  have hzero : k ≠ 0 := by
    rintro rfl
    omega
  have := (hlimit k (Nat.pos_of_ne_zero hzero)).mpr hlt
  omega

/-- The digits before the point of a quotient that is not below one. -/
theorem exists_digitCount_div {a b : ℕ} (hb : 0 < b) (hle : b ≤ a) :
    ∃ k, digitCount (a / b) = k + 1 ∧ (10 : ℚ) ^ k ≤ a / b ∧ (a : ℚ) / b < 10 ^ (k + 1) := by
  obtain ⟨k, hk, hlow, hhigh⟩ := exists_digitCount (Nat.div_pos hle hb).ne'
  have hfloor : ⌊(a : ℚ) / b⌋₊ = a / b := Nat.floor_div_eq_div a b
  refine ⟨k, hk, ?_, ?_⟩
  · calc (10 : ℚ) ^ k ≤ (a / b : ℕ) := by exact_mod_cast hlow
      _ ≤ (a : ℚ) / b := hfloor ▸ Nat.floor_le (by positivity)
  · calc (a : ℚ) / b < (a / b : ℕ) + 1 := hfloor ▸ Nat.lt_floor_add_one _
      _ ≤ 10 ^ (k + 1) := by exact_mod_cast hhigh

/-- The first digit of a double stands at its leading power, except for a power of ten, which ends the decade below. -/
theorem leadingPower_bounds {x : Double} (hx : x.mantissa ≠ 0) :
    (10 : ℚ) ^ leadingPower x ≤ x.toRat ∧ x.toRat ≤ 10 ^ (leadingPower x + 1) := by
  have hpos := x.toRat_pos hx
  have hratio := scaled_toRat x 0
  have hden : 0 < (scaled (4 * x.mantissa) x.exponent 0).2 := scaled_pos _ _ _
  rw [zpow_zero, div_one] at hratio
  simp only [leadingPower]
  rw [← hratio] at hpos ⊢
  generalize (scaled (4 * x.mantissa) x.exponent 0).1 = num at *
  generalize (scaled (4 * x.mantissa) x.exponent 0).2 = den at *
  have hnum : 0 < num := Nat.pos_of_ne_zero fun h => by simp [h] at hpos
  split_ifs with hle hexact
  · obtain ⟨k, hk, hlow, hhigh⟩ := exists_digitCount_div hden hle
    rw [hk, Nat.cast_succ, add_sub_cancel_right, zpow_natCast, ← Nat.cast_succ, zpow_natCast]
    exact ⟨hlow, hhigh.le⟩
  · obtain ⟨k, hk, -, -⟩ := exists_digitCount_div hnum (not_le.mp hle).le
    obtain ⟨hwhole, hpower⟩ := hexact
    rw [hk, Nat.add_sub_cancel, Nat.pow_eq] at hpower
    have hvalue : (num : ℚ) / den = 10 ^ (-(k : ℤ)) := by
      rw [← hwhole, hpower, zpow_neg, zpow_natCast]
      push_cast
      field_simp
    rw [hk, Nat.cast_succ, add_sub_cancel_right, hvalue]
    exact ⟨le_rfl, zpow_le_zpow_right₀ (by norm_num) (by omega)⟩
  · obtain ⟨k, hk, hlow, hhigh⟩ := exists_digitCount_div hnum (not_le.mp hle).le
    rw [← inv_div] at hlow hhigh
    rw [hk, show -((k + 1 : ℕ) : ℤ) + 1 = -(k : ℤ) by omega, zpow_neg, zpow_neg, zpow_natCast, zpow_natCast]
    exact ⟨inv_le_of_inv_le₀ hpos hhigh.le, le_inv_of_le_inv₀ (by positivity) hlow⟩

/-! ### Grids -/

/-- What lies between a double and a rational that rounds to it rounds to it as well. -/
theorem Double.Holds.between {x : Double} {q r : ℚ} (h : x.Holds q) (hr : q ≤ r ∧ r ≤ x.toRat ∨ x.toRat ≤ r ∧ r ≤ q) :
    x.Holds r := by
  have hquarter := x.quarter_pos
  have hgap : (1 : ℚ) ≤ lowerGap x := by exact_mod_cast (lowerGap_bounds x).1
  have hcentre : x.toRat / x.quarter = 4 * x.mantissa := by rw [x.toRat_eq, mul_div_assoc, div_self hquarter.ne', mul_one]
  have hscaled : q / x.quarter ≤ r / x.quarter ∧ r / x.quarter ≤ 4 * x.mantissa ∨
      4 * x.mantissa ≤ r / x.quarter ∧ r / x.quarter ≤ q / x.quarter := by
    simpa only [← hcentre, div_le_div_iff_of_pos_right hquarter] using hr
  unfold Holds at h ⊢
  split_ifs at h ⊢ <;> rcases hscaled with ⟨hlow, hhigh⟩ | ⟨hlow, hhigh⟩ <;> constructor <;> linarith [h.1, h.2]

theorem holds_of_gridPoint? {x : Double} {d : ℕ} {power : ℤ} (hd : gridPoint? x power = some d) :
    x.Holds (d * 10 ^ power) ∧ (d = ⌊x.toRat / 10 ^ power⌋₊ ∨ d = ⌊x.toRat / 10 ^ power⌋₊ + 1) := by
  simp only [gridPoint?, floor_toRat] at hd
  generalize ⌊x.toRat / 10 ^ power⌋₊ = low at hd ⊢
  rw [← roundsTo_iff]
  split_ifs at hd <;> simp_all

/-- If a point of a grid rounds to the double, so does one of the neighbours of the double on that grid. -/
theorem gridPoint?_ne_none {x : Double} {d : ℕ} {power : ℤ} (hd : x.Holds (d * 10 ^ power)) : gridPoint? x power ≠ none := by
  have hpower : (0 : ℚ) < 10 ^ power := by positivity
  have hneighbour :
      roundsTo x ⌊x.toRat / 10 ^ power⌋₊ power = true ∨ roundsTo x (⌊x.toRat / 10 ^ power⌋₊ + 1) power = true := by
    rw [roundsTo_iff, roundsTo_iff]
    have hpos : 0 ≤ x.toRat / 10 ^ power := by
      rw [x.toRat_eq]
      have := x.quarter_pos
      positivity
    have hfloor := Nat.floor_le hpos
    have hceil := (Nat.lt_floor_add_one (x.toRat / 10 ^ power)).le
    rw [le_div_iff₀ hpower] at hfloor
    rw [div_le_iff₀ hpower] at hceil
    rcases Nat.lt_or_ge ⌊x.toRat / 10 ^ power⌋₊ d with hlt | hle
    · refine .inr (hd.between (.inr ⟨by exact_mod_cast hceil, mul_le_mul_of_nonneg_right ?_ hpower.le⟩))
      exact_mod_cast hlt
    · exact .inl (hd.between (.inl ⟨mul_le_mul_of_nonneg_right (by exact_mod_cast hle) hpower.le, hfloor⟩))
  simp only [gridPoint?, floor_toRat]
  split_ifs <;> simp_all

/-! ### The search -/

/-- The search stops at a neighbour of the double, on a grid between the first and the last. -/
theorem searchGrids_bounds {x : Double} {lead : ℤ} {fuel count : ℕ} :
    lead - count - fuel ≤ (searchGrids x lead fuel count).power ∧ (searchGrids x lead fuel count).power ≤ lead - count ∧
      ((searchGrids x lead fuel count).digits = ⌊x.toRat / 10 ^ (searchGrids x lead fuel count).power⌋₊ ∨
        (searchGrids x lead fuel count).digits = ⌊x.toRat / 10 ^ (searchGrids x lead fuel count).power⌋₊ + 1) := by
  induction fuel generalizing count with
  | zero => simp [searchGrids, floor_toRat]
  | succ fuel ih =>
    rw [searchGrids]
    split
    · rename_i d hd
      exact ⟨by dsimp only; omega, le_rfl, (holds_of_gridPoint? hd).2⟩
    · obtain ⟨hlow, hhigh, hdigits⟩ := @ih (count + 1)
      exact ⟨by omega, by omega, hdigits⟩

/-- The search does not pass over a grid with a point that rounds to the double. -/
theorem searchGrids_of_holds {x : Double} {lead power : ℤ} {m : ℕ} (hm : x.Holds (m * 10 ^ power)) {fuel count : ℕ}
    (hleast : lead - count - fuel < power) (hfirst : power ≤ lead - count) :
    power ≤ (searchGrids x lead fuel count).power ∧ x.Holds (searchGrids x lead fuel count).value := by
  induction fuel generalizing count with
  | zero => omega
  | succ fuel ih =>
    rw [searchGrids]
    split
    · rename_i d hd
      exact ⟨hfirst, (holds_of_gridPoint? hd).1⟩
    · rename_i hnone
      have hne : power ≠ lead - count := by
        rintro rfl
        exact gridPoint?_ne_none hm hnone
      exact ih (by push_cast at hleast ⊢; omega) (by push_cast; omega)

theorem shortest_digits_bounds {x : Double} (hx : x.mantissa ≠ 0) :
    0 < (shortest x).digits ∧ (shortest x).digits < 10 ^ 20 := by
  obtain ⟨hlead, hdecade⟩ := leadingPower_bounds hx
  obtain ⟨hlow, hhigh, hdigits⟩ := @searchGrids_bounds x (leadingPower x) 18 0
  rw [← shortest] at hlow hhigh hdigits
  generalize shortest x = d at *
  have hpower : (0 : ℚ) < 10 ^ d.power := by positivity
  have hfirst : 1 ≤ ⌊x.toRat / 10 ^ d.power⌋₊ := by
    refine Nat.le_floor ?_
    rw [Nat.cast_one, one_le_div₀ hpower]
    exact (zpow_le_zpow_right₀ (by norm_num) (by push_cast at hhigh; omega)).trans hlead
  have hlast : ⌊x.toRat / 10 ^ d.power⌋₊ ≤ 10 ^ 19 := by
    refine Nat.floor_le_of_le ?_
    rw [div_le_iff₀ hpower, Nat.cast_pow, Nat.cast_ofNat, ← zpow_natCast, ← zpow_add₀ (by norm_num)]
    exact hdecade.trans (zpow_le_zpow_right₀ (by norm_num) (by push_cast at hlow ⊢; omega))
  omega

/-! ### A decimal of few digits -/

/-- Two rationals that round to a double of full precision differ by less than a part in `10 ^ 15`. -/
theorem Double.Holds.dist {x : Double} {q r : ℚ} (hq : x.Holds q) (hr : x.Holds r) (hx : 2 ^ 52 ≤ x.mantissa) :
    |q - r| * 10 ^ 15 ≤ q := by
  have hquarter := x.quarter_pos
  have hmantissa : (2 : ℚ) ^ 52 ≤ x.mantissa := by exact_mod_cast hx
  obtain ⟨hqlow, hqhigh⟩ := hq.bounds
  obtain ⟨hrlow, hrhigh⟩ := hr.bounds
  have hgap : |q / x.quarter - r / x.quarter| ≤ 4 := abs_le.mpr ⟨by linarith, by linarith⟩
  rw [← sub_div, abs_div, abs_of_pos hquarter, div_le_iff₀ hquarter] at hgap
  rw [le_div_iff₀ hquarter] at hqlow
  have hsize : (4 * 2 ^ 52 - 2) * x.quarter ≤ q := (mul_le_mul_of_nonneg_right (by linarith) hquarter.le).trans hqlow
  norm_num at hsize ⊢
  linarith

theorem Double.Holds.le_two_mul {x : Double} {q : ℚ} (h : x.Holds q) (hx : 1 ≤ x.mantissa) :
    x.toRat ≤ 2 * q ∧ q ≤ 2 * x.toRat := by
  have hquarter := x.quarter_pos
  have hmantissa : (1 : ℚ) ≤ x.mantissa := by exact_mod_cast hx
  obtain ⟨hlow, hhigh⟩ := h.bounds
  rw [le_div_iff₀ hquarter] at hlow
  rw [div_le_iff₀ hquarter] at hhigh
  have hleast := mul_le_mul_of_nonneg_right hmantissa hquarter.le
  rw [x.toRat_eq]
  constructor <;> linarith

/-- Points of a grid are equal if they are less than a step apart. -/
theorem eq_of_abs_sub_lt {a b : ℕ} {power : ℤ} (h : |(a : ℚ) * 10 ^ power - b * 10 ^ power| < 10 ^ power) : a = b := by
  have hpower : (0 : ℚ) < 10 ^ power := by positivity
  rw [← sub_mul, abs_mul, abs_of_pos hpower, mul_lt_iff_lt_one_left hpower] at h
  have hint : |(a : ℤ) - b| < 1 := by exact_mod_cast h
  have := Int.abs_lt_one_iff.mp hint
  omega

/-- A multiple of a power of ten is one of a lower power. -/
theorem exists_refined (m : ℕ) {low power : ℤ} (hle : low ≤ power) : ∃ k : ℕ, (m : ℚ) * 10 ^ power = k * 10 ^ low := by
  obtain ⟨n, rfl⟩ := Int.le.dest hle
  refine ⟨m * 10 ^ n, ?_⟩
  rw [zpow_add₀ (by norm_num), zpow_natCast]
  push_cast
  ring

/-- A decimal of at most fifteen digits that rounds to the double is met on a grid of the search with a step above a part in
`10 ^ 15` of it: its own one, or the first of the search if its own is coarser. -/
theorem exists_grid {x : Double} (hx : 1 ≤ x.mantissa) {m : ℕ} {power : ℤ} (hm : m < 10 ^ 15) (hholds : x.Holds (m * 10 ^ power)) :
    ∃ grid, grid ≤ power ∧ grid ≤ leadingPower x ∧ leadingPower x - 18 < grid ∧ (m : ℚ) * 10 ^ power < 10 ^ 15 * 10 ^ grid := by
  obtain ⟨hlead, hdecade⟩ := leadingPower_bounds (Nat.one_le_iff_ne_zero.mp hx)
  obtain ⟨hsize, hsize'⟩ := hholds.le_two_mul hx
  rcases le_total power (leadingPower x) with hle | hle
  · have hbound : (m : ℚ) * 10 ^ power < 10 ^ 15 * 10 ^ power :=
      mul_lt_mul_of_pos_right (by exact_mod_cast hm) (by positivity)
    refine ⟨power, le_rfl, hle, ?_, hbound⟩
    have hlt : (10 : ℚ) ^ leadingPower x < 10 ^ (power + 16) := by
      rw [zpow_add₀ (by norm_num)]
      norm_num at hbound ⊢
      linarith
    have := (zpow_lt_zpow_iff_right₀ (by norm_num)).mp hlt
    omega
  · refine ⟨leadingPower x, hle, le_rfl, by omega, ?_⟩
    rw [zpow_add₀ (by norm_num)] at hdecade
    norm_num at hdecade ⊢
    have : (0 : ℚ) < 10 ^ leadingPower x := by positivity
    linarith

/-- A decimal of at most fifteen digits is the shortest one of the double that it rounds to. -/
theorem shortest_value {x : Double} (hx : 2 ^ 52 ≤ x.mantissa) {m : ℕ} {power : ℤ} (hm : m < 10 ^ 15)
    (hholds : x.Holds (m * 10 ^ power)) : (shortest x).value = m * 10 ^ power := by
  obtain ⟨grid, hgrid, hfirst, hnear, hless⟩ := exists_grid (Nat.one_le_two_pow.trans hx) hm hholds
  obtain ⟨k, hk⟩ := exists_refined m hgrid
  rw [hk] at hholds hless ⊢
  obtain ⟨hpower, hfound⟩ : grid ≤ (shortest x).power ∧ x.Holds (shortest x).value :=
    searchGrids_of_holds hholds (by push_cast; omega) (by push_cast; omega)
  obtain ⟨l, hl⟩ := exists_refined (shortest x).digits hpower
  rw [Digits.value, hl] at hfound ⊢
  have hdist : |(k : ℚ) * 10 ^ grid - l * 10 ^ grid| * 10 ^ 15 < 10 ^ grid * 10 ^ 15 := by
    linarith [hholds.dist hfound hx]
  rw [eq_of_abs_sub_lt (lt_of_mul_lt_mul_right hdist (by norm_num))]

end AlgebraTutor.Decimal
