import AlgebraTutor.Proofs.Reader.Lexeme
import AlgebraTutor.Proofs.Text.Numeral

/-!
# Literals without a value

A literal keeps digits that are written in the text, and it has no value only if it writes a number of more digits than the
limit. The shortest way to write such a number that the grammar accepts is in base sixteen.
-/

namespace AlgebraTutor.Reader

namespace Literal

/-- The digits that the literal keeps are written in the text, behind what announces their base. -/
def IsCutFrom (cs : List Char) : Literal → Prop
  | .integer base ds =>
    (base = 10 ∧ ds.Sublist cs ∧ ∀ d ∈ ds, d.isDigit = true) ∨
      ∃ c isDigit, base? c = some (base, isDigit) ∧ ('0' :: c :: ds).Sublist cs ∧ ∀ d ∈ ds, isDigit d = true
  | .decimal whole fraction _ exponent =>
    ∀ ds ∈ [whole, fraction, exponent], ds.Sublist cs ∧ ∀ d ∈ ds, d.isDigit = true

theorem IsCutFrom.mono {cs more : List Char} {l : Literal} (h : l.IsCutFrom cs) (hsub : cs.Sublist more) :
    l.IsCutFrom more := by
  cases l with
  | integer base ds =>
    rcases h with ⟨hbase, hds, hall⟩ | ⟨c, isDigit, hbase, hds, hall⟩
    · exact .inl ⟨hbase, hds.trans hsub, hall⟩
    · exact .inr ⟨c, isDigit, hbase, hds.trans hsub, hall⟩
  | decimal whole fraction isNegative exponent => exact fun ds hds => ⟨(h ds hds).1.trans hsub, (h ds hds).2⟩

/-! ### What is cut off a text -/

section Cut

variable {cs rest ds : List Char} {l : Literal}

theorem sublist_spanDigits (isDigit : Char → Bool) (cs : List Char) :
    (spanDigits isDigit cs).1.Sublist cs ∧ (spanDigits isDigit cs).2.Sublist cs ∧
      ∀ d ∈ (spanDigits isDigit cs).1, isDigit d = true :=
  ⟨List.takeWhile_sublist _, List.dropWhile_sublist _, fun _ hd => List.mem_takeWhile_imp hd⟩

theorem sublist_exponentSign (cs : List Char) : (exponentSign cs).2.Sublist cs := by
  unfold exponentSign
  split
  · exact List.sublist_cons_self _ _
  · exact List.sublist_cons_self _ _
  · exact List.Sublist.refl _

theorem sublist_exponent {isNegative : Bool} (hread : exponent? cs = some (isNegative, ds, rest)) :
    ds.Sublist cs ∧ ∀ d ∈ ds, d.isDigit = true := by
  cases cs with
  | nil => simp [exponent?] at hread
  | cons c cs =>
    simp only [exponent?] at hread
    split at hread
    · split at hread
      · simp at hread
      · simp only [Option.some.injEq, Prod.mk.injEq] at hread
        obtain ⟨-, rfl, -⟩ := hread
        have hspan := sublist_spanDigits Char.isDigit (exponentSign cs).2
        exact ⟨(hspan.1.trans (sublist_exponentSign cs)).cons c, hspan.2.2⟩
    · simp at hread

theorem isCutFrom_decimalWith {whole fraction mid : List Char} (hwhole : whole.Sublist cs ∧ ∀ d ∈ whole, d.isDigit = true)
    (hfraction : fraction.Sublist cs ∧ ∀ d ∈ fraction, d.isDigit = true) (hmid : mid.Sublist cs) :
    (decimalWith whole fraction mid).1.IsCutFrom cs := by
  unfold decimalWith
  split
  · rename_i isNegative ds rest hread
    have hexponent := sublist_exponent hread
    simp only [IsCutFrom, List.forall_mem_cons, List.not_mem_nil, false_imp_iff, implies_true, and_true]
    exact ⟨hwhole, hfraction, hexponent.1.trans hmid, hexponent.2⟩
  · simp only [IsCutFrom, List.forall_mem_cons, List.not_mem_nil, false_imp_iff, implies_true, and_true]
    exact ⟨hwhole, hfraction, List.nil_sublist cs⟩

theorem isCutFrom_decimal (hread : decimal? cs = some (l, rest)) : l.IsCutFrom cs := by
  have hspan := sublist_spanDigits Char.isDigit cs
  simp only [decimal?] at hread
  split at hread
  · rename_i r hpoint
    split at hread
    · simp at hread
    · have hafter : r.Sublist cs := by
        have hpointed := hspan.2.1
        rw [hpoint] at hpointed
        exact (List.sublist_cons_self '.' r).trans hpointed
      have hfraction := sublist_spanDigits Char.isDigit r
      have hcut := isCutFrom_decimalWith ⟨hspan.1, hspan.2.2⟩ ⟨hfraction.1.trans hafter, hfraction.2.2⟩
        (hfraction.2.1.trans hafter)
      rwa [Option.some.inj hread] at hcut
  · split at hread
    · simp at hread
    · obtain ⟨⟨isNegative, ds, r⟩, hexponent, heq⟩ := Option.map_eq_some_iff.mp hread
      obtain ⟨rfl, rfl⟩ := Prod.mk.inj heq
      have hdigits := sublist_exponent hexponent
      simp only [IsCutFrom, List.forall_mem_cons, List.not_mem_nil, false_imp_iff, implies_true, and_true]
      exact ⟨⟨hspan.1, hspan.2.2⟩, List.nil_sublist cs, hdigits.1.trans hspan.2.1, hdigits.2⟩

theorem isCutFrom_based (hread : based? cs = some (l, rest)) : l.IsCutFrom cs := by
  unfold based? at hread
  split at hread
  · rename_i c cs
    split at hread
    · rename_i base isDigit hbase
      have hspan := sublist_spanDigits isDigit cs
      simp only at hread
      split at hread
      · simp at hread
      · obtain ⟨rfl, -⟩ := Prod.mk.inj (Option.some.inj hread)
        exact .inr ⟨c, isDigit, hbase, (hspan.1.cons_cons c).cons_cons '0', hspan.2.2⟩
    · simp at hread
  · simp at hread

theorem isCutFrom_integer (hread : integer? cs = some (l, rest)) : l.IsCutFrom cs := by
  unfold integer? at hread
  split at hread
  · rename_i tail
    obtain ⟨rfl, -⟩ := Prod.mk.inj (Option.some.inj hread)
    have hspan := sublist_spanDigits (· == '0') ('0' :: tail)
    refine .inl ⟨rfl, hspan.1, fun d hd => ?_⟩
    obtain rfl := beq_iff_eq.mp (hspan.2.2 d hd)
    rfl
  · have hspan := sublist_spanDigits Char.isDigit cs
    simp only at hread
    split at hread
    · simp at hread
    · obtain ⟨rfl, -⟩ := Prod.mk.inj (Option.some.inj hread)
      exact .inl ⟨rfl, hspan.1, hspan.2.2⟩

theorem isCutFrom_allDigits (hread : allDigits? cs = some (l, rest)) : l.IsCutFrom cs := by
  simp only [allDigits?] at hread
  split at hread
  · simp at hread
  · obtain ⟨rfl, -⟩ := Prod.mk.inj (Option.some.inj hread)
    have hspan := sublist_spanDigits Char.isDigit cs
    exact .inl ⟨rfl, hspan.1, hspan.2.2⟩

theorem eq_of_imaginaryMark {found : Literal × List Char} (hread : imaginaryMark? found = some (l, rest)) : l = found.1 := by
  unfold imaginaryMark? at hread
  split at hread
  · split at hread
    · exact (Prod.mk.inj (Option.some.inj hread)).1.symm
    · simp at hread
  · simp at hread

theorem isCutFrom_scan {isImaginary : Bool} (hread : scan? cs = some (l, isImaginary, rest)) : l.IsCutFrom cs := by
  unfold scan? at hread
  split at hread
  · rename_i l' rest' himaginary
    obtain ⟨found, hdigits, hmark⟩ := Option.bind_eq_some_iff.mp himaginary
    obtain ⟨rfl, -⟩ := Prod.mk.inj (Option.some.inj hread)
    exact eq_of_imaginaryMark hmark ▸ isCutFrom_allDigits hdigits
  · split at hread
    · rename_i found hdecimal
      split at hread
      · rename_i hmark
        obtain ⟨rfl, -⟩ := Prod.mk.inj (Option.some.inj hread)
        exact eq_of_imaginaryMark hmark ▸ isCutFrom_decimal hdecimal
      · obtain ⟨rfl, -⟩ := Prod.mk.inj (Option.some.inj hread)
        exact isCutFrom_decimal hdecimal
    · split at hread
      · rename_i hbased
        obtain ⟨rfl, -⟩ := Prod.mk.inj (Option.some.inj hread)
        exact isCutFrom_based hbased
      · obtain ⟨found, hinteger, heq⟩ := Option.map_eq_some_iff.mp hread
        obtain ⟨rfl, -⟩ := Prod.mk.inj heq
        exact isCutFrom_integer hinteger

end Cut

/-! ### How long a literal without a value is -/

/-- The fewest characters that write a number of more digits than the limit. -/
def shortestOverlong : Nat := 3574

theorem base?_bounds {c : Char} {base : Nat} {isDigit : Char → Bool} (hc : base? c = some (base, isDigit)) :
    base ≤ 16 ∧ Text.isNumeral c = true ∧
      ∀ d, isDigit d = true → Text.digitValue d < base ∧ Text.isNumeral d = true := by
  simp only [base?, Bool.or_eq_true, beq_iff_eq] at hc
  split_ifs at hc with hsixteen htwo height
  · obtain ⟨rfl, rfl⟩ := Prod.mk.inj (Option.some.inj hc)
    refine ⟨by omega, by rcases hsixteen with rfl | rfl <;> decide, fun d hd => ?_⟩
    exact ⟨Text.digitValue_lt_sixteen hd, Text.isNumeral_of_isHexDigit hd⟩
  · obtain ⟨rfl, rfl⟩ := Prod.mk.inj (Option.some.inj hc)
    refine ⟨by omega, by rcases htwo with rfl | rfl <;> decide, fun d hd => ?_⟩
    obtain ⟨hdigit, hvalue⟩ := Text.isDigit_of_isBinaryDigit hd
    exact ⟨hvalue, Text.isNumeral_of_isDigit hdigit⟩
  · obtain ⟨rfl, rfl⟩ := Prod.mk.inj (Option.some.inj hc)
    refine ⟨by omega, by rcases height with rfl | rfl <;> decide, fun d hd => ?_⟩
    obtain ⟨hdigit, hvalue⟩ := Text.isDigit_of_isOctalDigit hd
    exact ⟨hvalue, Text.isNumeral_of_isDigit hdigit⟩

/-- An integer has a value exactly if it is below the first number of more digits than the limit. -/
theorem value?_integer_eq_none_iff {base : Nat} {ds : List Char} :
    (Literal.integer base ds).value? = none ↔ 10 ^ Tree.digitLimit ≤ Text.numeralValue base ds := by
  have hlimit := @Nat.length_toDigits_le_iff 10 (Text.numeralValue base ds) Tree.digitLimit (by decide) (by decide)
  rw [value?, ite_eq_left_iff]
  simp only [reduceCtorEq, imp_false, not_not]
  omega

/-- So many digits in base sixteen write no number beyond the limit. -/
theorem sixteen_pow_lt {n : Nat} (hn : n ≤ 3571) : 16 ^ n < 10 ^ Tree.digitLimit := by
  have hmost : 16 ^ (n + (3571 - n)) < 10 ^ Tree.digitLimit := by
    rw [Nat.add_sub_cancel' hn]
    decide +kernel
  exact Nat.lt_of_le_of_lt (Nat.pow_le_pow_right (by decide) (Nat.le_add_right _ _)) hmost

/-- What the grammar takes in base ten is within the limit. -/
theorem numeralValue_lt_of_isWellFormed {ds : List Char} (hall : ∀ d ∈ ds, d.isDigit = true)
    (hform : (Literal.integer 10 ds).isWellFormed = true) : Text.numeralValue 10 ds < 10 ^ Tree.digitLimit := by
  simp only [isWellFormed, Bool.or_eq_true, List.all_eq_true, beq_iff_eq, Bool.and_eq_true, decide_eq_true_eq] at hform
  rcases hform with hzeros | ⟨-, hlength⟩
  · rw [Text.numeralValue_zeros hzeros]
    exact Nat.pow_pos (by decide)
  · calc Text.numeralValue 10 ds
        < 10 ^ ds.length := Text.numeralValue_lt fun d hd => Text.digitValue_lt_ten (hall d hd)
      _ ≤ 10 ^ Tree.digitLimit := Nat.pow_le_pow_right (by decide) hlength

theorem lt_length_of_le_numeralValue {base : Nat} {ds : List Char} (hbase : base ≤ 16)
    (hds : ∀ d ∈ ds, Text.digitValue d < base) (hlong : 10 ^ Tree.digitLimit ≤ Text.numeralValue base ds) :
    3571 < ds.length := by
  by_contra hshort
  refine absurd hlong (Nat.not_le.mpr ?_)
  calc Text.numeralValue base ds
      < base ^ ds.length := Text.numeralValue_lt hds
    _ ≤ 16 ^ ds.length := Nat.pow_le_pow_left hbase _
    _ < 10 ^ Tree.digitLimit := sixteen_pow_lt (Nat.not_lt.mp hshort)

/-- A literal that is well formed and has no value takes so many characters of the text. -/
theorem IsCutFrom.shortestOverlong_le {cs : List Char} {l : Literal} (h : l.IsCutFrom cs) (hform : l.isWellFormed = true)
    (hvalue : l.value? = none) : shortestOverlong ≤ cs.countP Text.isNumeral := by
  cases l with
  | integer base ds =>
    have hlong := value?_integer_eq_none_iff.mp hvalue
    rcases h with ⟨rfl, -, hall⟩ | ⟨c, isDigit, hbase, hsub, hall⟩
    · exact absurd hlong (Nat.not_le.mpr (numeralValue_lt_of_isWellFormed hall hform))
    · obtain ⟨hsixteen, hc, hdigits⟩ := base?_bounds hbase
      have hlength := lt_length_of_le_numeralValue hsixteen (fun d hd => (hdigits d (hall d hd)).1) hlong
      -- the digits stand behind a zero and the letter of the base
      have hcount := Text.length_le_countP hsub fun d hd => by
        rcases List.mem_cons.mp hd with rfl | hd
        · decide
        · rcases List.mem_cons.mp hd with rfl | hd
          · exact hc
          · exact (hdigits d (hall d hd)).2
      simp only [List.length_cons] at hcount
      show 3574 ≤ _
      omega
  | decimal whole fraction isNegative exponent =>
    have hcount (ds : List Char) (hds : ds ∈ [whole, fraction, exponent]) : ds.length ≤ cs.countP Text.isNumeral :=
      Text.length_le_countP (h ds hds).1 fun d hd => Text.isNumeral_of_isDigit ((h ds hds).2 d hd)
    have hwhole := hcount whole (by simp)
    have hfraction := hcount fraction (by simp)
    have hexponent := hcount exponent (by simp)
    have hlimit : Tree.digitLimit = 4300 := rfl
    simp only [value?, ite_eq_left_iff, Bool.or_eq_true, decide_eq_true_eq] at hvalue
    show 3574 ≤ _
    by_contra hshort
    have hfits := hvalue (by omega)
    split at hfits <;> simp at hfits

end Literal

/-! ### The literals of a text -/

theorem scan?_of_lexeme? {cs rest : List Char} {l : Literal} {isImaginary : Bool}
    (h : lexeme? cs = some (.number l isImaginary, rest)) : Literal.scan? cs = some (l, isImaginary, rest) := by
  unfold lexeme? at h
  split at h
  · rename_i hscan
    simp only [Option.some.injEq, Prod.mk.injEq, Lexeme.number.injEq] at h
    obtain ⟨⟨rfl, rfl⟩, rfl⟩ := h
    exact hscan
  · split at h
    · simp at h
    · split at h
      · split at h <;> simp at h
      · simp at h

theorem Lexed.isCutFrom {cs : List Char} {ls : List Lexeme} (h : Lexed cs ls) {l : Literal} {isImaginary : Bool}
    (hl : .number l isImaginary ∈ ls) : l.IsCutFrom cs := by
  induction h with
  | nil => simp at hl
  | blank _ _ ih => exact (ih hl).mono (List.sublist_cons_self _ _)
  | @lexeme cs rest x ls hlexeme _ ih =>
    rcases List.mem_cons.mp hl with rfl | hl
    · exact Literal.isCutFrom_scan (scan?_of_lexeme? hlexeme)
    · obtain ⟨front, -, rfl⟩ := shortened_lexeme hlexeme
      exact (ih hl).mono (List.sublist_append_right _ _)

end AlgebraTutor.Reader
