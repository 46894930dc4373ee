import AlgebraTutor.Proofs.Input
import AlgebraTutor.Proofs.Pattern.Decimals
import AlgebraTutor.Proofs.Pattern.Plain
import AlgebraTutor.Proofs.Pattern.Simplified
import AlgebraTutor.Proofs.Text.Arrangement
import AlgebraTutor.Proofs.Text.Signs

/-!
# Simplified decimals

A decimal, alone or in front of one letter, is in simplified form: its simplified fraction is written as this decimal again. In
front of several letters it never is, since the number of the fraction is not found there and the product of all of them is
multiplied by the reciprocal of the denominator.
-/

namespace AlgebraTutor

open Text (DecimalNumeral LetterRow)
open AlgebraTutor.Decimal (FitsDouble)

/-! ### Products with letters -/

section Multiple

open AlgebraTutor.Tree (multiple IsWrapped)

variable {letters : List Char} {q : ℚ}

/-- In front of one letter at most, the number is written, and then the letter. -/
theorem exists_isWrapped (h : AreUnknowns letters) (hshort : letters.length ≤ 1) :
    ∃ tail, IsWrapped (fun q => multiple q letters) tail := by
  rcases letters with _ | ⟨c, _ | ⟨e, cs⟩⟩
  · exact ⟨_, Tree.isWrapped_const⟩
  · exact ⟨_, Tree.isWrapped_multiple (Tree.isAlpha_of_isUnknown (h.unknown c List.mem_cons_self))⟩
  · simp at hshort

theorem hasFraction_multiple (hshort : letters.length ≤ 1) (hden : q.den ≠ 1) : (multiple q letters).hasFraction = true := by
  rcases letters with _ | ⟨c, _ | ⟨e, cs⟩⟩
  · simp [multiple, Tree.timesLetters, Tree.hasFraction, Tree.nodes, hden]
  · have hproduct : multiple q [c] = .apply .mul [.const q, .symbol c.toString] := Tree.binary_mul_symbol q c.toString
    simp [hproduct, Tree.hasFraction, Tree.nodes, Tree.nodesAll, hden]
  · simp at hshort

variable (h : AreUnknowns letters) (hq : 0 < q) (hden : q.den ≠ 1) {k : ℕ} (hk : k ≤ 3000) (hdvd : q.den ∣ 10 ^ k)

include h hq hden hk hdvd

/-- With one letter at most, the decimal of the simplified form is the product itself. -/
theorem isSimplifiedSide_of_short (hshort : letters.length ≤ 1) (hfits : FitsDouble q) {side : String}
    (hread : Tree.ofText side = .ok (multiple q letters)) : isSimplifiedSide side = .ok true := by
  obtain ⟨tail, hwrapped⟩ := exists_isWrapped h hshort
  obtain ⟨number, hnumber⟩ := (Tree.exists_numberChars_iff hq hden).mpr hfits
  have hwritten : (multiple q letters).chars = .ok (number ++ tail) := hwrapped.chars_eq_ok_iff.mpr ⟨number, hnumber, rfl⟩
  have hintegers := Tree.isShort_of_fitsDouble hq hfits hk hdvd
  have hwritable : Polynomial.IsWritable (Monomial.ofLetters letters, q) :=
    ⟨hq.ne', Tree.unknowns_ofLetters h, hintegers.1, hintegers.2, List.forall_mem_map.mpr fun _ _ => Tree.isShort_one⟩
  obtain ⟨answer, hanswer⟩ := hwritable.composed.exists_chars
  have hdecimal := Tree.withDecimals_termTree h hq hden hdvd
  rw [Tree.decimalProduct_of_short (Rat.num_pos.mpr hq) hshort, Rat.num_div_den] at hdecimal
  exact (isSimplifiedSide_iff hread).mpr ⟨_, _, answer, hwritten, Tree.simplify_multiple h hq.ne', hanswer,
    .inr ⟨hasFraction_multiple hshort hden, _, _, hdecimal, hwritten, Text.sameArrangement_refl _⟩⟩

omit hk in
/-- With more letters, a slash stands in the simplified form and parentheses in its decimal, and neither in the text. -/
theorem not_isSimplifiedSide_of_long (hlong : 1 < letters.length) {side : String}
    (hread : Tree.ofText side = .ok (multiple q letters)) : isSimplifiedSide side ≠ .ok true := by
  intro hside
  obtain ⟨written, simple, answer, hwritten, hsimple, hanswer, hsame⟩ := (isSimplifiedSide_iff hread).mp hside
  obtain rfl := Except.ok.inj ((Tree.simplify_multiple h hq.ne').symm.trans hsimple)
  have habsent {c : Char} (hc : c = '/' ∨ c = '(') : c ∉ written := by
    refine Tree.not_mem_chars_timesLetters h.unknown ?_ ?_ rfl (Tree.two_le_precedence_const q) (fun cs hcs hmem => ?_) hwritten
    · rcases hc with rfl | rfl <;> decide
    · rcases hc with rfl | rfl <;> decide
    · have hnumber := Tree.mem_numberChars hq hden hcs hmem
      rcases hc with rfl | rfl <;> revert hnumber <;> decide
  rcases hsame with hsame | ⟨-, decimal, other, hdecimal, hother, hsame⟩
  · rw [Tree.termTree_letters h hq hden] at hanswer
    have hslash := Tree.mem_chars_quotient hanswer
    rw [← Text.mem_iff_of_sameArrangement hsame (by decide) (by decide) (by decide)] at hslash
    exact habsent (.inl rfl) hslash
  · have hnested := Tree.isNested_numerator (Rat.num_pos.mpr hq) hlong
    rw [Tree.withDecimals_termTree h hq hden hdvd, hnested.decimalProduct] at hdecimal
    obtain rfl := Except.ok.inj hdecimal
    have hparen := Tree.mem_chars_nested hnested hother
    rw [← Text.mem_iff_of_sameArrangement hsame (by decide) (by decide) (by decide)] at hparen
    exact habsent (.inr rfl) hparen

/-- A product of a decimal and letters is simplified exactly if there is one letter at most and the decimal can be written. -/
theorem isSimplifiedSide_multiple_iff {side : String} (hread : Tree.ofText side = .ok (multiple q letters)) :
    isSimplifiedSide side = .ok true ↔ letters.length ≤ 1 ∧ FitsDouble q := by
  constructor
  · intro hside
    have hshort : letters.length ≤ 1 := by
      by_contra hlong
      exact not_isSimplifiedSide_of_long h hq hden hdvd (not_le.mp hlong) hread hside
    obtain ⟨tail, hwrapped⟩ := exists_isWrapped h hshort
    obtain ⟨written, -, -, hwritten, -⟩ := (isSimplifiedSide_iff hread).mp hside
    obtain ⟨number, hnumber, -⟩ := hwrapped.chars_eq_ok_iff.mp hwritten
    exact ⟨hshort, (Tree.exists_numberChars_iff hq hden).mp ⟨number, hnumber⟩⟩
  · exact fun ⟨hshort, hfits⟩ => isSimplifiedSide_of_short h hq hden hk hdvd hshort hfits hread

end Multiple

/-! ### Sides -/

theorem exists_ofText_of_isSimplifiedSide {side : String} (h : isSimplifiedSide side = .ok true) : ∃ t, Tree.ofText side = .ok t :=
  (Answer.bind_eq_ok_iff.mp h).imp fun _ => And.left

/-- The decimal is short enough to be read, and not too large for a double, so it can be written. -/
structure Text.DecimalNumeral.IsPrintable (d : DecimalNumeral) : Prop where
  short : d.IsShort
  fits : FitsDouble d.value

namespace Text

theorem LetterRow.areUnknowns (w : LetterRow) : AreUnknowns w.letters where
  unknown c hc := by
    refine ⟨⟨c, w.isAlpha c hc, rfl⟩, ?_⟩
    have hletter (s : String) (hs : s.toList ≠ [c]) : (c.toString == s) = false :=
      beq_eq_false_iff_ne.mpr fun heq => hs (by simp [← heq])
    rw [Tree.isNamedConstant, hletter "pi" (by simp), hletter "E" (by simpa using (w.unfused c hc).2.1.symm), Bool.or_self]
  increasing := w.increasing

theorem LetterRow.not_isImaginary (w : LetterRow) (hlength : w.letters.length = 1) : ¬w.IsImaginary := by
  rintro ⟨c, cs, hletters, -, hlower⟩
  rw [hletters] at hlength
  obtain rfl : cs = [] := by simpa using hlength
  simp [startsWithLower] at hlower

namespace DecimalNumeral

variable {d : DecimalNumeral} (hplaces : d.fraction.length ≤ 3000)

theorem value_pos (hden : d.value.den ≠ 1) : 0 < d.value :=
  lt_of_le_of_ne d.value_nonneg fun hzero => hden (by rw [← hzero]; rfl)

include hplaces

/-- A decimal of at most three hundred digits in front of its point is printable. -/
theorem isPrintable_of_whole (hwhole : d.whole.length ≤ 300) : d.IsPrintable where
  short := ⟨hwhole.trans (by decide), hplaces.trans (by decide)⟩
  fits := Decimal.fitsDouble_of_lt (d.value_lt.trans_le (pow_le_pow_right₀ (by norm_num) hwhole))

variable (hden : d.value.den ≠ 1)

include hden

theorem isSimplifiedSide_chars : isSimplifiedSide (String.ofList d.chars) = .ok true ↔ d.IsPrintable := by
  by_cases hshort : d.IsShort
  · have hnil : AreUnknowns [] := ⟨by simp, .nil⟩
    rw [isSimplifiedSide_multiple_iff hnil (value_pos hden) hden hplaces d.den_value_dvd (Reader.ofText_decimal hshort)]
    exact ⟨fun h => ⟨hshort, h.2⟩, fun h => ⟨Nat.zero_le 1, h.fits⟩⟩
  · refine iff_of_false (fun hside => ?_) fun h => hshort h.short
    obtain ⟨t, ht⟩ := exists_ofText_of_isSimplifiedSide hside
    simp [Reader.ofText_decimal_of_not_short hshort] at ht

theorem isSimplifiedSide_row (w : LetterRow) :
    isSimplifiedSide (String.ofList (d.chars ++ w.letters)) = .ok true ↔ w.letters.length = 1 ∧ d.IsPrintable := by
  have hlength : 0 < w.letters.length := List.length_pos_iff.mpr w.ne_nil
  by_cases hread : d.IsShort ∧ ¬w.IsImaginary
  · rw [isSimplifiedSide_multiple_iff w.areUnknowns (value_pos hden) hden hplaces d.den_value_dvd
      (Reader.ofText_row_eq_ok_iff.mpr ⟨hread.1, hread.2, rfl⟩)]
    exact ⟨fun h => ⟨by omega, hread.1, h.2⟩, fun h => ⟨h.1.le, h.2.fits⟩⟩
  · refine iff_of_false (fun hside => ?_) fun h => hread ⟨h.2.short, w.not_isImaginary h.1⟩
    obtain ⟨t, ht⟩ := exists_ofText_of_isSimplifiedSide hside
    obtain ⟨hshort, hreal, -⟩ := Reader.ofText_row_eq_ok_iff.mp ht
    exact hread ⟨hshort, hreal⟩

end DecimalNumeral

end Text

theorem isSimplifiedSide_integer {n : ℤ} {side : String} (hside : (Tree.const n).text = .ok side) :
    isSimplifiedSide side = .ok true := by
  obtain ⟨cs, hcs, rfl⟩ := Tree.text_eq_ok_iff.mp hside
  have hcomposed : (Tree.const n).Composed := .integer n (Tree.chars_integer_eq_ok_iff.mp hcs).1
  obtain ⟨s, hs, hread⟩ := Reader.ofText_of_composed hcomposed
  obtain rfl := Except.ok.inj (hs.symm.trans hside)
  have hsimplify : (Tree.const n).simplify = .ok (.const n) := by
    have hdenotes : (Tree.const n).Denotes (Polynomial.const n).toMv := Polynomial.toMv_const (n : ℚ) ▸ .const (n : ℚ)
    rw [Tree.simplify_of_denotes (Polynomial.canonical_const n) hdenotes, Tree.toTree_const]
  exact (isSimplifiedSide_iff hread).mpr ⟨_, _, _, hcs, hsimplify, hcs, .inl (Text.sameArrangement_refl _)⟩

/-! ### Inputs -/

/-- A text without blanks and signs but for one minus at most. -/
structure IsSide (cs : List Char) : Prop where
  ne_nil : cs ≠ []
  plain : ∀ c ∈ cs, Text.isBlank c = false ∧ c ∉ ['=', '+', '*', '/']
  minus : cs.count '-' ≤ 1

namespace IsSide

variable {cs ds : List Char}

theorem trimChars (h : IsSide cs) : Text.trimChars cs = cs :=
  Text.trimChars_eq_self (fun c hc => (h.plain c (List.mem_of_head? hc)).1) fun c hc => (h.plain c (List.mem_of_getLast? hc)).1

theorem not_mem (h : IsSide cs) {c : Char} (hc : c ∈ ['=', '+', '*', '/']) : c ∉ cs :=
  fun hmem => (h.plain c hmem).2 hc

/-- Two minuses are no doubled operator, and the other signs are missing. -/
theorem not_hasDoubledOperator (hsigns : ∀ c ∈ ['+', '*', '/'], c ∉ cs) (hminus : cs.count '-' ≤ 2) :
    Input.hasDoubledOperator cs = false := by
  have habsent {c : Char} (hc : c ∈ ['+', '*', '/']) : c ∉ Text.withoutBlanks cs :=
    fun hmem => hsigns c hc (List.mem_of_mem_filter hmem)
  have htreble : Text.containsChars ['-', '-', '-'] (Text.withoutBlanks cs) = false := by
    rw [Bool.eq_false_iff, Ne, Text.containsChars_iff_infix]
    intro htriple
    have hcount := (htriple.sublist.trans List.filter_sublist).count_le '-'
    have hthree : ['-', '-', '-'].count '-' = 3 := rfl
    omega
  have hplus := Text.containsChars_eq_false ['+'] (habsent (c := '+') (by simp))
  have hslash := Text.containsChars_eq_false ['/'] (habsent (c := '/') (by simp))
  have hstar := Text.containsChars_eq_false ['*'] (habsent (c := '*') (by simp))
  simp [Input.hasDoubledOperator, Input.doubledOperators, htreble, hplus, hslash, hstar]

/-- A side is taken as an expression. -/
theorem ofText (h : IsSide cs) : Input.ofText (String.ofList cs) = .ok ⟨String.ofList cs, none⟩ :=
  Input.ofText_expression h.ne_nil h.trimChars
    (not_hasDoubledOperator (fun _ hc => h.not_mem (List.mem_cons_of_mem _ hc)) (h.minus.trans one_le_two)) (h.not_mem (by simp))

/-- Two sides are taken as the equation of them. -/
theorem exists_ofText_equationText (h : IsSide cs) (h' : IsSide ds) :
    ∃ p, Input.ofText (Input.equationText (String.ofList cs) (String.ofList ds)) = .ok p ∧
      p.sides = [String.ofList cs, String.ofList ds] := by
  have htext : (Input.equationText (String.ofList cs) (String.ofList ds)).toList = cs ++ [' ', '=', ' '] ++ ds := by
    simp [Input.equationText]
  have hdoubled : Input.hasDoubledOperator (cs ++ [' ', '=', ' '] ++ ds) = false := by
    refine not_hasDoubledOperator (fun c hc => ?_) ?_
    · have hmark : c ∉ [' ', '=', ' '] := by
        revert c
        decide
      rw [List.mem_append, List.mem_append, not_or, not_or]
      exact ⟨⟨h.not_mem (List.mem_cons_of_mem _ hc), hmark⟩, h'.not_mem (List.mem_cons_of_mem _ hc)⟩
    · have hmark : [' ', '=', ' '].count '-' = 0 := rfl
      have hleft := h.minus
      have hright := h'.minus
      rw [List.count_append, List.count_append]
      omega
  rw [← htext, Input.hasDoubledOperator, ← Text.withoutBlanks_trimChars, ← Input.hasDoubledOperator] at hdoubled
  have hequals : '=' ∉ (String.ofList cs).toList ∧ '=' ∉ (String.ofList ds).toList := by
    simp only [String.toList_ofList]
    exact ⟨h.not_mem (by simp), h'.not_mem (by simp)⟩
  have hinput := Input.ofText_equationText hequals.1 hequals.2
  simp only [hdoubled, Text.trim, String.toList_ofList, h.trimChars, h'.trimChars, List.isEmpty_iff, h.ne_nil, h'.ne_nil,
    Bool.or_eq_true, or_self, Bool.false_eq_true, if_false] at hinput
  exact ⟨_, hinput, rfl⟩

end IsSide

/-- Letters, digits and points are a side, also behind a minus. -/
theorem isSide_of_forall {cs : List Char} (hne : cs ≠ []) (hcs : ∀ c ∈ cs, c.isAlphanum = true ∨ c = '.') :
    IsSide cs ∧ IsSide ('-' :: cs) := by
  have hplain : ∀ c ∈ cs, Text.isBlank c = false ∧ c ∉ ['=', '+', '*', '/'] := by
    intro c hc
    have hsigns : ∀ d ∈ ['=', '+', '*', '/'], d.isAlphanum = false := by decide
    rcases hcs c hc with halphanum | rfl
    · exact ⟨Reader.Piece.not_isBlank_of_isAlphanum halphanum, fun hmem => by simp [hsigns c hmem] at halphanum⟩
    · decide
  have hminus : cs.count '-' = 0 := List.count_eq_zero.mpr fun hmem => by simpa using hcs '-' hmem
  exact ⟨⟨hne, hplain, by omega⟩, ⟨List.cons_ne_nil _ _, List.forall_mem_cons.mpr ⟨by decide, hplain⟩, by simp [hminus]⟩⟩

theorem isSide_row (d : DecimalNumeral) (w : LetterRow) : IsSide (d.chars ++ w.letters) := by
  refine (isSide_of_forall (List.append_ne_nil_of_right_ne_nil _ w.ne_nil) fun c hc => ?_).1
  rcases List.mem_append.mp hc with hc | hc
  · exact (d.mem_chars hc).symm.imp_left fun hdigit => by simp [Char.isAlphanum, hdigit]
  · exact .inl (by simp [Char.isAlphanum, w.isAlpha c hc])

theorem isSide_decimal (d : DecimalNumeral) : IsSide d.chars :=
  (isSide_of_forall Reader.chars_ne_nil fun _ hc => (d.mem_chars hc).symm.imp_left fun hdigit => by simp [Char.isAlphanum, hdigit]).1

theorem isSide_integer {n : ℤ} {side : String} (hside : (Tree.const n).text = .ok side) :
    ∃ cs, IsSide cs ∧ side = String.ofList cs := by
  obtain ⟨cs, hcs, rfl⟩ := Tree.text_eq_ok_iff.mp hside
  obtain ⟨-, rfl⟩ := Tree.chars_integer_eq_ok_iff.mp hcs
  obtain ⟨hplain, hminus⟩ := @isSide_of_forall (Nat.toDigits 10 n.natAbs) Nat.toDigits_ne_nil fun c hc =>
    .inl (by simp [Char.isAlphanum, Text.isDigit_of_mem_digits hc])
  refine ⟨_, ?_, rfl⟩
  split_ifs
  · exact hminus
  · exact hplain

/-! ### Texts in simplified form -/

theorem IsSide.matchesSimplifiedForm_iff {cs ds : List Char} (h : IsSide cs) (h' : IsSide ds) :
    (matchesSimplifiedForm (String.ofList cs) = true ↔ isSimplifiedSide (String.ofList cs) = .ok true) ∧
      (matchesSimplifiedForm (Input.equationText (String.ofList cs) (String.ofList ds)) = true ↔
        isSimplifiedSide (String.ofList cs) = .ok true ∧ isSimplifiedSide (String.ofList ds) = .ok true) := by
  obtain ⟨p, hinput, hsides⟩ := h.exists_ofText_equationText h'
  rw [AlgebraTutor.matchesSimplifiedForm_iff h.ofText, AlgebraTutor.matchesSimplifiedForm_iff hinput, hsides]
  simp [Input.sides]

namespace Text.DecimalNumeral

open Input (equationText)

/-- A decimal in front of different letters in alphabetical order, alone or as the left side of an equation with an integer or a
decimal on the right, is in simplified form exactly if there is one letter only and the decimals are printable. Decimals of at
most three hundred digits in front of their point are. -/
theorem matchesSimplifiedForm_row {d : DecimalNumeral} (hplaces : d.fraction.length ≤ 3000) (hden : d.value.den ≠ 1)
    (w : LetterRow) :
    (matchesSimplifiedForm (String.ofList (d.chars ++ w.letters)) = true ↔ w.letters.length = 1 ∧ d.IsPrintable) ∧
    (∀ (n : ℤ) (right : String), (Tree.const n).text = .ok right →
      (matchesSimplifiedForm (equationText (String.ofList (d.chars ++ w.letters)) right) = true ↔
        w.letters.length = 1 ∧ d.IsPrintable)) ∧
    (∀ e : DecimalNumeral, e.fraction.length ≤ 3000 → e.value.den ≠ 1 →
      (matchesSimplifiedForm (equationText (String.ofList (d.chars ++ w.letters)) (String.ofList e.chars)) = true ↔
        w.letters.length = 1 ∧ d.IsPrintable ∧ e.IsPrintable)) ∧
    (d.whole.length ≤ 300 → d.IsPrintable) := by
  have hrow := isSide_row d w
  have hside := isSimplifiedSide_row hplaces hden w
  refine ⟨?_, fun n right hright => ?_, fun e heplaces heden => ?_, isPrintable_of_whole hplaces⟩
  · rw [(hrow.matchesSimplifiedForm_iff hrow).1, hside]
  · obtain ⟨cs, hcs, rfl⟩ := isSide_integer hright
    rw [(hrow.matchesSimplifiedForm_iff hcs).2, hside, and_iff_left (isSimplifiedSide_integer hright)]
  · rw [(hrow.matchesSimplifiedForm_iff (isSide_decimal e)).2, hside, isSimplifiedSide_chars heplaces heden, and_assoc]

theorem matchesSimplifiedForm_one_and_a_half :
    matchesSimplifiedForm "1.5x" = true ∧ matchesSimplifiedForm "1.5x = -3" = true ∧ matchesSimplifiedForm "1.5x = 2.25" = true := by
  let d : DecimalNumeral := ⟨['1'], ['5'], by decide, by decide, by decide, by decide⟩
  let e : DecimalNumeral := ⟨['2'], ['2', '5'], by decide, by decide, by decide, by decide⟩
  let w : LetterRow := ⟨['x'], by decide, by decide, by decide, by decide, by decide⟩
  have hden : d.value.den ≠ 1 ∧ e.value.den ≠ 1 := by decide +kernel
  obtain ⟨halone, hinteger, hdecimal, hprintable⟩ := matchesSimplifiedForm_row (d := d) (by decide) hden.1 w
  have hd := hprintable (by decide)
  have he : e.IsPrintable := isPrintable_of_whole (by decide) (by decide)
  exact ⟨halone.mpr ⟨rfl, hd⟩, (hinteger (-3) "-3" rfl).mpr ⟨rfl, hd⟩, (hdecimal e (by decide) hden.2).mpr ⟨rfl, hd, he⟩⟩

/-- With a second letter the form that is expected is `0.5 * (3x * y)`. -/
theorem exists_unrecognized_decimal : ∃ (d : DecimalNumeral) (w : LetterRow), d.value.den ≠ 1 ∧ w.letters = ['x', 'y'] ∧
    String.ofList (d.chars ++ w.letters) = "1.5xy" ∧ matchesSimplifiedForm "1.5xy" = false := by
  let d : DecimalNumeral := ⟨['1'], ['5'], by decide, by decide, by decide, by decide⟩
  let w : LetterRow := ⟨['x', 'y'], by decide, by decide, by decide, by decide, by decide⟩
  exact ⟨d, w, by decide +kernel⟩

end Text.DecimalNumeral

end AlgebraTutor
