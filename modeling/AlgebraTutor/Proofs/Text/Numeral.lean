import Mathlib.Data.List.Induction
import Mathlib.Tactic.Ring
import AlgebraTutor.Proofs.Text.Display
import AlgebraTutor.Proofs.Text.Letters

/-!
# The characters of numerals

How large a number a row of digits writes, and how many characters of a text can belong to numerals: no stage on the way to
the text that is cut into lexemes adds one.
-/

namespace AlgebraTutor.Text

/-! ### The value of a row of digits -/

section Digits

variable {base : Nat} {c : Char}

theorem numeralValue_concat (ds : List Char) (c : Char) :
    numeralValue base (ds ++ [c]) = numeralValue base ds * base + digitValue c := by
  rw [numeralValue, List.foldl_append]
  rfl

theorem numeralValue_append (ds es : List Char) :
    numeralValue base (ds ++ es) = numeralValue base ds * base ^ es.length + numeralValue base es := by
  induction es using List.reverseRecOn with
  | nil => simp [numeralValue]
  | append_singleton es c ih =>
    rw [← List.append_assoc, numeralValue_concat, numeralValue_concat, ih, List.length_append, List.length_singleton, Nat.pow_succ]
    ring

theorem numeralValue_lt {ds : List Char} (hds : ∀ c ∈ ds, digitValue c < base) :
    numeralValue base ds < base ^ ds.length := by
  induction ds using List.reverseRecOn with
  | nil => exact Nat.one_pos
  | append_singleton ds c ih =>
    have hfront := ih fun d hd => hds d (List.mem_append_left _ hd)
    have hlast := hds c (by simp)
    rw [numeralValue_concat, List.length_append, List.length_singleton, Nat.pow_succ]
    calc numeralValue base ds * base + digitValue c
        < numeralValue base ds * base + base := Nat.add_lt_add_left hlast _
      _ = (numeralValue base ds + 1) * base := by ring
      _ ≤ base ^ ds.length * base := Nat.mul_le_mul_right base hfront

theorem numeralValue_zeros {ds : List Char} (hds : ∀ c ∈ ds, c = '0') : numeralValue base ds = 0 := by
  induction ds using List.reverseRecOn with
  | nil => rfl
  | append_singleton ds c ih =>
    obtain rfl : c = '0' := hds c (by simp)
    rw [numeralValue_concat, ih fun d hd => hds d (List.mem_append_left _ hd), Nat.zero_mul]
    rfl

/-- The first digit alone is worth this much. -/
theorem le_numeralValue (c : Char) (ds : List Char) : digitValue c * base ^ ds.length ≤ numeralValue base (c :: ds) := by
  induction ds using List.reverseRecOn with
  | nil => simp [numeralValue]
  | append_singleton ds d ih =>
    rw [← List.cons_append, numeralValue_concat, List.length_append, List.length_singleton, Nat.pow_succ]
    calc digitValue c * (base ^ ds.length * base)
        = digitValue c * base ^ ds.length * base := by ring
      _ ≤ numeralValue base (c :: ds) * base := Nat.mul_le_mul_right base ih
      _ ≤ numeralValue base (c :: ds) * base + digitValue d := Nat.le_add_right _ _

theorem le_iff_toNat_le {c d : Char} : c ≤ d ↔ c.toNat ≤ d.toNat := by
  rw [Char.le_def, UInt32.le_iff_toNat_le]
  rfl

theorem isDigit_iff : c.isDigit = true ↔ 48 ≤ c.toNat ∧ c.toNat ≤ 57 := by
  simp only [Char.isDigit, Bool.and_eq_true, decide_eq_true_eq, ge_iff_le, UInt32.le_iff_toNat_le]
  rfl

theorem isDecimalDigit_of_isDigit (hc : c.isDigit = true) : isDecimalDigit c = true := by
  have hrange := isDigit_iff.mp hc
  rw [isDecimalDigit, List.any_eq_true]
  exact ⟨0x30, by simp [digitZeros], by simp; omega⟩

theorem digitValue_lt_ten (hc : c.isDigit = true) : digitValue c < 10 := by
  have hzero : '0'.toNat = 48 := by decide
  have hrange := isDigit_iff.mp hc
  rw [digitValue, if_pos hc]
  omega

theorem digitValue_pos (hc : c.isDigit = true) (hzero : c ≠ '0') : 0 < digitValue c := by
  have hrange := isDigit_iff.mp hc
  have hne : c.toNat ≠ '0'.toNat := fun h => hzero (Char.toNat_inj.mp h)
  rw [digitValue, if_pos hc]
  exact Nat.sub_pos_of_lt (Nat.lt_of_le_of_ne hrange.1 hne.symm)

theorem digitValue_lt_sixteen (hc : isHexDigit c = true) : digitValue c < 16 := by
  have hbounds : '0'.toNat = 48 ∧ 'a'.toNat = 97 ∧ 'f'.toNat = 102 ∧ 'A'.toNat = 65 ∧ 'F'.toNat = 70 := by decide
  simp only [isHexDigit, digitValue, Bool.or_eq_true, Bool.and_eq_true, decide_eq_true_eq, isDigit_iff,
    le_iff_toNat_le] at hc ⊢
  split_ifs <;> omega

theorem isDigit_of_isOctalDigit (hc : isOctalDigit c = true) : c.isDigit = true ∧ digitValue c < 8 := by
  have hbounds : '0'.toNat = 48 ∧ '7'.toNat = 55 := by decide
  simp only [isOctalDigit, Bool.and_eq_true, decide_eq_true_eq, le_iff_toNat_le] at hc
  have hdigit : c.isDigit = true := isDigit_iff.mpr (by omega)
  refine ⟨hdigit, ?_⟩
  rw [digitValue, if_pos hdigit]
  omega

theorem isDigit_of_isBinaryDigit (hc : isBinaryDigit c = true) : c.isDigit = true ∧ digitValue c < 2 := by
  simp only [isBinaryDigit, Bool.or_eq_true, beq_iff_eq] at hc
  rcases hc with rfl | rfl <;> decide

end Digits

/-! ### How many characters can belong to numerals -/

/-- The character is a digit in some base, or announces a base. -/
def isNumeral (c : Char) : Bool :=
  isHexDigit c || ['x', 'X', 'o', 'O'].contains c

theorem isNumeral_of_isHexDigit {c : Char} (hc : isHexDigit c = true) : isNumeral c = true := by
  rw [isNumeral, hc, Bool.true_or]

theorem isNumeral_of_isDigit {c : Char} (hc : c.isDigit = true) : isNumeral c = true :=
  isNumeral_of_isHexDigit (by simp [isHexDigit, hc])

theorem length_le_countP {cs ds : List Char} (hsub : ds.Sublist cs) (hds : ∀ c ∈ ds, isNumeral c = true) :
    ds.length ≤ cs.countP isNumeral :=
  List.countP_eq_length.mpr hds ▸ hsub.countP_le

theorem trimChars_sublist (cs : List Char) : (trimChars cs).Sublist cs := by
  rw [trimChars, ← List.reverse_sublist, List.reverse_reverse]
  exact (List.dropWhile_sublist _).trans (List.reverse_sublist.mpr (List.dropWhile_sublist _))

/-- No display character stands for a digit, or is one. -/
theorem countP_plainSpelling (c : Char) : (plainSpelling c).countP isNumeral = [c].countP isNumeral := by
  unfold plainSpelling
  split_ifs with hroot hpi htimes hminus hover hopen hclose
  · subst hroot
    decide
  · subst hpi
    decide
  · rcases htimes with rfl | rfl <;> decide
  · subst hminus
    decide
  · subst hover
    decide
  · rcases hopen with rfl | rfl <;> decide
  · rcases hclose with rfl | rfl <;> decide
  · rfl

theorem countP_flatMap_plainSpelling (cs : List Char) :
    (cs.flatMap plainSpelling).countP isNumeral = cs.countP isNumeral := by
  induction cs with
  | nil => rfl
  | cons c cs ih =>
    rw [List.flatMap_cons, List.countP_append, countP_plainSpelling, ih, ← List.countP_append, List.singleton_append]

theorem countP_lowerPi (afterLetter : Bool) (cs : List Char) :
    (lowerPi afterLetter cs).countP isNumeral = cs.countP isNumeral := by
  fun_induction lowerPi afterLetter cs with
  | case1 => rfl
  | case2 afterLetter i cs hpi ih =>
    have hi : isNumeral i = false := by
      simp only [Bool.and_eq_true, Bool.or_eq_true, beq_iff_eq] at hpi
      rcases hpi.1.2 with rfl | rfl <;> decide
    have hname : isNumeral 'P' = false ∧ isNumeral 'p' = false ∧ isNumeral 'i' = false := by decide
    simp [ih, hi, hname]
  | case3 afterLetter i cs hpi ih => rw [List.countP_cons, ih, ← List.countP_cons]
  | case4 afterLetter d cs hp ih => rw [List.countP_cons, ih, ← List.countP_cons]

theorem isNumeral_star : isNumeral '*' = false := by
  decide

theorem countP_setOffLetters (cs : List Char) : (setOffLetters cs).countP isNumeral = cs.countP isNumeral := by
  fun_induction setOffLetters cs with
  | case1 => rfl
  | case2 d l cs hset ih => simp [List.countP_cons, ih, isNumeral_star]
  | case3 d l cs hset ih => rw [List.countP_cons, ih, ← List.countP_cons]
  | case4 c => rfl

theorem countP_plain_le (cs : List Char) : (plain cs).countP isNumeral ≤ cs.countP isNumeral := by
  rw [plain, countP_setOffLetters, countP_lowerPi, countP_flatMap_plainSpelling]
  exact (trimChars_sublist cs).countP_le

theorem countP_spellRun (w : List Char) : (spellRun w).countP isNumeral = w.countP isNumeral := by
  fun_induction spellRun w with
  | case1 => rfl
  | case2 c => rfl
  | case3 c d cs ih =>
    rw [List.countP_cons, List.countP_cons_of_neg (by simp [isNumeral_star]), ih, ← List.countP_cons]

theorem countP_spellProducts (vars cs : List Char) : (spellProducts vars cs).countP isNumeral = cs.countP isNumeral := by
  induction cs using letters_induction with
  | nil => rfl
  | other c cs hc ih => rw [spellProducts_other hc, List.countP_cons, ih, ← List.countP_cons]
  | run w rest hne hw hrest ih =>
    rw [spellProducts_run hne hw hrest, List.countP_append, ih, List.countP_append, spelledRun]
    split
    · rw [countP_spellRun]
    · rfl

end AlgebraTutor.Text
