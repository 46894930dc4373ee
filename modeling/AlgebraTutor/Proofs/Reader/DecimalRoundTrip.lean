import AlgebraTutor.Proofs.Decimal.Printed
import AlgebraTutor.Proofs.Reader.Exponent
import AlgebraTutor.Proofs.Reader.RoundTrip
import AlgebraTutor.Proofs.Tree.Digits

/-!
# Which decimals are read back

A decimal is read exactly, but written as the double nearest to it. It is read back from what is written, alone and in front
of a letter, exactly if it is an integer or printed exactly; otherwise another number is written, or a text with an
exponent, which is read as two numbers, or nothing at all.
-/

namespace AlgebraTutor

open Text (DecimalNumeral)
open Decimal (PrintsExactly)

namespace Tree

/-- The tree is written, and read back from what is written. -/
def IsReread (t : Tree) : Prop :=
  ∃ s, t.text = .ok s ∧ ofText s = .ok t

theorem isReread_iff {t : Tree} : t.IsReread ↔ ∃ cs, t.chars = .ok cs ∧ ofText (String.ofList cs) = .ok t := by
  simp only [IsReread, text, Answer.bind_eq_ok_iff, Answer.pure_eq_ok_iff]
  constructor
  · rintro ⟨_, ⟨cs, hcs, rfl⟩, hread⟩
    exact ⟨cs, hcs, hread⟩
  · rintro ⟨cs, hcs, hread⟩
    exact ⟨_, ⟨cs, hcs, rfl⟩, hread⟩

/-- The number is an integer, or what is printed for it is the number. -/
def IsWrittenExactly (q : ℚ) : Prop :=
  q.den = 1 ∨ PrintsExactly q

/-- Trees that are written as their number and a tail, and are read from decimals with this tail. -/
structure IsWrapped (wrap : ℚ → Tree) (tail : List Char) : Prop where
  isTail : Reader.IsTail tail
  chars_eq_ok_iff : ∀ {q cs}, (wrap q).chars = .ok cs ↔ ∃ ds, numberChars q = .ok ds ∧ ds ++ tail = cs
  ofText_eq : ∀ {n : DecimalNumeral}, n.IsShort → ofText (String.ofList (n.chars ++ tail)) = .ok (wrap n.value)
  injective : Function.Injective wrap
  hasNumber : ∀ {q value}, (wrap q).HasNumber value → value = q ∨ value = -q

theorem isWrapped_const : IsWrapped const [] where
  isTail := .empty
  chars_eq_ok_iff := by simp [chars]
  ofText_eq := fun hshort => by rw [List.append_nil, Reader.ofText_decimal hshort]
  injective := fun _ _ => const.inj
  hasNumber := fun h => (hasNumber_const.mp h).imp Eq.symm fun heq => by rw [heq, neg_neg]

theorem binary_mul_symbol (q : ℚ) (name : String) : binary .mul (const q) (symbol name) = .apply .mul [const q, symbol name] := by
  have hleft : leftNeedsParen .mul (const q) = false := by
    have hprecedence : 2 ≤ (const q).precedence := by
      rw [precedence]
      split_ifs <;> decide
    rw [leftNeedsParen, if_neg (by decide)]
    exact decide_eq_false (Nat.not_lt.mpr hprecedence)
  have hright : rightNeedsParen .mul (symbol name) = false := rfl
  simp [binary, stripParens, hleft, hright, parenIf]

/-- The sign of a product of a number and a letter. -/
def productSign (v : Char) : List Char :=
  if fusesWithDigits v.toString then [' ', '*', ' '] else []

theorem isProductSign_productSign {v : Char} (hv : v.isAlpha = true) : Reader.IsProductSign v (productSign v) := by
  unfold productSign
  split_ifs with hfuses
  · exact .inr (.inr rfl)
  · exact .inl ⟨rfl, Reader.Piece.not_literalLetter_of_name (.inl ⟨v, hv, rfl⟩) (Bool.eq_false_iff.mpr hfuses) v (by simp)⟩

theorem isWrapped_multiple {v : Char} (hv : v.isAlpha = true) :
    IsWrapped (fun q => binary .mul (const q) (symbol v.toString)) (productSign v ++ [v]) where
  isTail := .letter hv (isProductSign_productSign hv)
  chars_eq_ok_iff := by
    intro q cs
    have himplicit : isImplicitProduct (const q) (symbol v.toString) = .ok (!fusesWithDigits v.toString) := rfl
    have hletter : v.toString.toList = [v] := by simp
    have hsign : separator (!fusesWithDigits v.toString) .mul = productSign v := by
      unfold productSign separator
      cases fusesWithDigits v.toString <;> rfl
    rw [binary_mul_symbol, chars_operator_eq_ok_iff rfl]
    simp only [if_true, himplicit, Except.ok.injEq, exists_eq_left', hsign, chars, hletter]
  ofText_eq := fun hshort => Reader.ofText_multiple hv (isProductSign_productSign hv) hshort
  injective := fun a b h => by
    simp only [binary_mul_symbol] at h
    simpa using h
  hasNumber := fun {q value} h => by
    rcases hasNumber_binary.mp h with h | h
    · exact isWrapped_const.hasNumber h
    · simp [HasNumber, nodes] at h

/-- A positive number that is no integer is read back exactly if it is printed exactly. -/
theorem IsWrapped.isReread_iff {wrap : ℚ → Tree} {tail : List Char} (h : IsWrapped wrap tail) {q : ℚ} (hq : 0 < q)
    (hden : q.den ≠ 1) : (wrap q).IsReread ↔ PrintsExactly q := by
  have hprinted := Decimal.printed_textOfNearest? hq
  simp only [Tree.isReread_iff, h.chars_eq_ok_iff, numberChars, if_neg hden]
  generalize Decimal.textOfNearest? q = text at hprinted
  cases hprinted with
  | tooLarge hnot => simpa using hnot
  | decimal n hshort hexact =>
    rw [← hexact]
    constructor
    · rintro ⟨_, ⟨ds, hds, rfl⟩, hread⟩
      obtain rfl := Except.ok.inj hds
      exact h.injective (Except.ok.inj ((h.ofText_eq hshort).symm.trans hread))
    · rintro rfl
      exact ⟨_, ⟨_, rfl, rfl⟩, h.ofText_eq hshort⟩
  | exponent htext hnot =>
    refine iff_of_false ?_ hnot
    rintro ⟨_, ⟨ds, hds, rfl⟩, hread⟩
    obtain rfl := Except.ok.inj hds
    exact Reader.ofText_exponent_ne htext h.isTail hq (fun _ => h.hasNumber) hread

theorem isReread_of_den_eq_one {q : ℚ} (hden : q.den = 1) (hshort : IsShort q.num) {v : Char} (hv : v.isAlpha = true) :
    (const q).IsReread ∧ (binary .mul (const q) (symbol v.toString)).IsReread := by
  have hnumber : (const q).Composed := by
    rw [← Rat.coe_int_num_of_den_eq_one hden]
    exact .integer q.num hshort
  exact ⟨Reader.ofText_of_composed hnumber, Reader.ofText_of_composed (hnumber.binary rfl (.letter v hv))⟩

/-- A text is read as a tree that is read back from what is written for it. -/
def SurvivesWriting (text : String) : Prop :=
  ∃ t, ofText text = .ok t ∧ t.IsReread

theorem survivesWriting_iff {text : String} {t : Tree} (hread : ofText text = .ok t) : SurvivesWriting text ↔ t.IsReread :=
  ⟨fun ⟨_, ht, hreread⟩ => Except.ok.inj (hread.symm.trans ht) ▸ hreread, fun hreread => ⟨t, hread, hreread⟩⟩

theorem not_survivesWriting {text : String} {failure : Failure} (hread : ofText text = .error failure) : ¬SurvivesWriting text :=
  fun ⟨t, ht, _⟩ => by simp [hread] at ht

theorem not_survivesWriting_of_reads {text s : String} {t u : Tree} (hread : ofText text = .ok t) (htext : t.text = .ok s)
    (hreread : ofText s = .ok u) (hne : t ≠ u) : ¬SurvivesWriting text := by
  rw [survivesWriting_iff hread]
  rintro ⟨s', htext', hreread'⟩
  obtain rfl := Except.ok.inj (htext.symm.trans htext')
  exact hne (Except.ok.inj (hreread'.symm.trans hreread))

end Tree

open AlgebraTutor.Tree (IsWrittenExactly SurvivesWriting)

namespace Text.DecimalNumeral

variable (d : DecimalNumeral)

theorem value_nonneg : 0 ≤ d.value :=
  div_nonneg (Nat.cast_nonneg _) (by positivity)

theorem value_lt : d.value < 10 ^ d.whole.length := by
  have hall : numeralValue 10 (d.whole ++ d.fraction) < 10 ^ (d.whole ++ d.fraction).length := numeralValue_lt fun c hc =>
    digitValue_lt_ten ((List.mem_append.mp hc).elim (d.isDigit_whole c) (d.isDigit_fraction c))
  rw [List.length_append, pow_add] at hall
  rw [value, div_lt_iff₀ (by positivity)]
  exact_mod_cast hall

/-- The integer that a decimal may be is within the limit if the decimal is. -/
theorem isShort_num (hshort : d.IsShort) (hden : d.value.den = 1) : Tree.IsShort d.value.num := by
  have hlimit : (10 : ℕ) ^ d.whole.length ≤ 10 ^ Tree.digitLimit := Nat.pow_le_pow_right (by decide) hshort.1
  have hnum : (d.value.num.natAbs : ℚ) = d.value := by
    rw [Nat.cast_natAbs, abs_of_nonneg (Rat.num_nonneg.mpr d.value_nonneg), Rat.coe_int_num_of_den_eq_one hden]
  have hless : (d.value.num.natAbs : ℚ) < (10 ^ d.whole.length : ℕ) := by
    rw [hnum, Nat.cast_pow, Nat.cast_ofNat]
    exact d.value_lt
  exact (Nat.length_toDigits_le_iff (by decide) (by decide)).mpr ((Nat.cast_lt.mp hless).trans_le hlimit)

theorem isReread_iff (hshort : d.IsShort) {v : Char} (hv : v.isAlpha = true) :
    ((Tree.const d.value).IsReread ↔ IsWrittenExactly d.value) ∧
      ((Tree.binary .mul (.const d.value) (.symbol v.toString)).IsReread ↔ IsWrittenExactly d.value) := by
  by_cases hden : d.value.den = 1
  · have hreread := Tree.isReread_of_den_eq_one hden (d.isShort_num hshort hden) hv
    exact ⟨iff_of_true hreread.1 (.inl hden), iff_of_true hreread.2 (.inl hden)⟩
  · have hpos : 0 < d.value := lt_of_le_of_ne d.value_nonneg fun hzero => hden (by rw [← hzero]; rfl)
    rw [IsWrittenExactly, or_iff_right hden]
    exact ⟨Tree.isWrapped_const.isReread_iff hpos hden, (Tree.isWrapped_multiple hv).isReread_iff hpos hden⟩

/-- A decimal of at most fifteen digits is written exactly, unless it is below `0.0001`. -/
theorem isWrittenExactly_of_lt {m : ℕ} {power : ℤ} (hm : m < 10 ^ 15) (hvalue : d.value = m * 10 ^ power)
    (hsize : d.value.den = 1 ∨ 1 / 10 ^ 4 ≤ d.value) : IsWrittenExactly d.value := by
  by_cases hden : d.value.den = 1
  · exact .inl hden
  · have hpower : power < 0 := by
      by_contra hnot
      obtain ⟨k, rfl⟩ := Int.eq_ofNat_of_zero_le (not_lt.mp hnot)
      rw [zpow_natCast] at hvalue
      exact hden (by rw [hvalue]; exact_mod_cast Rat.den_natCast (m * 10 ^ k))
    have hsmall : (10 : ℚ) ^ power ≤ 1 := zpow_le_one_of_nonpos₀ (by norm_num) hpower.le
    have hdigits : (m : ℚ) < 10 ^ 16 := by exact_mod_cast hm.trans (by norm_num)
    refine .inr (Decimal.printsExactly_of_lt hm hvalue (hsize.resolve_left hden) ?_)
    rw [hvalue]
    exact (mul_le_of_le_one_right (Nat.cast_nonneg m) hsmall).trans_lt hdigits

theorem ofText_star {v : Char} (hv : v.isAlpha = true) (hshort : d.IsShort) :
    Tree.ofText (String.ofList (d.chars ++ ['*', v])) = .ok (.binary .mul (.const d.value) (.symbol v.toString)) := by
  have hread := Reader.ofText_multiple hv (.inr (.inl rfl)) hshort
  rwa [List.singleton_append] at hread

theorem ofText_star_of_not_short {v : Char} (hv : v.isAlpha = true) (hlong : ¬d.IsShort) :
    Tree.ofText (String.ofList (d.chars ++ ['*', v])) = .error .digitLimit := by
  have hread := Reader.ofText_multiple_of_not_short hv (.inr (.inl rfl)) hlong
  rwa [List.singleton_append] at hread

/-- A decimal is read exactly, and multiplied by the letter behind it. Alone and with the letter, it is read back from what is
written for it exactly if it is an integer or printed exactly, as every decimal of at most fifteen digits is that is not
below `0.0001`. -/
theorem survivesWriting {v : Char} (hv : v.isAlpha = true) :
    (d.IsShort → Tree.ofText (String.ofList d.chars) = .ok (.const d.value) ∧
      Tree.ofText (String.ofList (d.chars ++ ['*', v])) = .ok (.binary .mul (.const d.value) (.symbol v.toString))) ∧
    (SurvivesWriting (String.ofList d.chars) ↔ d.IsShort ∧ IsWrittenExactly d.value) ∧
    (SurvivesWriting (String.ofList (d.chars ++ ['*', v])) ↔ d.IsShort ∧ IsWrittenExactly d.value) ∧
    ∀ (m : ℕ) (power : ℤ), m < 10 ^ 15 → d.value = m * 10 ^ power → d.value.den = 1 ∨ 1 / 10 ^ 4 ≤ d.value →
      IsWrittenExactly d.value := by
  by_cases hshort : d.IsShort
  · have halone := Reader.ofText_decimal hshort
    have hmultiple := d.ofText_star hv hshort
    rw [Tree.survivesWriting_iff halone, Tree.survivesWriting_iff hmultiple, and_iff_right hshort]
    obtain ⟨hconst, hproduct⟩ := d.isReread_iff hshort hv
    exact ⟨fun _ => ⟨halone, hmultiple⟩, hconst, hproduct, fun _ _ => d.isWrittenExactly_of_lt⟩
  · have halone := Reader.ofText_decimal_of_not_short hshort
    have hmultiple := d.ofText_star_of_not_short hv hshort
    exact ⟨fun h => absurd h hshort, iff_of_false (Tree.not_survivesWriting halone) fun h => hshort h.1,
      iff_of_false (Tree.not_survivesWriting hmultiple) fun h => hshort h.1, fun _ _ => d.isWrittenExactly_of_lt⟩

theorem survivesWriting_one_and_a_half :
    'x'.isAlpha = true ∧ SurvivesWriting "1.5" ∧ SurvivesWriting "1.5*x" := by
  let d : DecimalNumeral := ⟨['1'], ['5'], by decide, by decide, by decide, by decide⟩
  have hvalue : d.value = 3 / 2 := by
    have hdigits : numeralValue 10 (d.whole ++ d.fraction) = 15 := rfl
    have hplaces : d.fraction.length = 1 := rfl
    rw [value, hdigits, hplaces]
    norm_num
  have hshort : d.IsShort := ⟨by decide, by decide⟩
  obtain ⟨-, halone, hproduct, hexact⟩ := d.survivesWriting (v := 'x') rfl
  have hwritten : IsWrittenExactly d.value :=
    hexact 15 (-1) (by norm_num) (by rw [hvalue]; norm_num) (.inr (by rw [hvalue]; norm_num))
  exact ⟨rfl, halone.mpr ⟨hshort, hwritten⟩, hproduct.mpr ⟨hshort, hwritten⟩⟩

/-- `0.00001` is written with an exponent, as `1e-05`, which is read as `1 * e - 0 * 5`, and of twenty digits seventeen are
written. -/
theorem exists_lost_decimal :
    ¬SurvivesWriting "0.00001" ∧ ¬SurvivesWriting "0.00001*x" ∧ ¬SurvivesWriting "0.12345678901234567890" := by
  refine ⟨@Tree.not_survivesWriting_of_reads _ "1e-05" (.const (1 / 100000))
      (.apply .sub [.apply .mul [.const 1, .symbol "e"], .apply .mul [.const 0, .const 5]]) ?_ ?_ ?_ ?_,
    @Tree.not_survivesWriting_of_reads _ "1e-05x" (.apply .mul [.const (1 / 100000), .symbol "x"])
      (.apply .sub [.apply .mul [.const 1, .symbol "e"], .apply .mul [.apply .mul [.const 0, .const 5], .symbol "x"]]) ?_ ?_ ?_ ?_,
    @Tree.not_survivesWriting_of_reads _ "0.12345678901234568" (.const (12345678901234567890 / 10 ^ 20))
      (.const (12345678901234568 / 10 ^ 17)) ?_ ?_ ?_ ?_⟩ <;>
  decide +kernel

end Text.DecimalNumeral

end AlgebraTutor
