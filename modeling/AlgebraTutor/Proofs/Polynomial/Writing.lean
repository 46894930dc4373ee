import AlgebraTutor.Proofs.Polynomial.Terms
import AlgebraTutor.Proofs.Text.Sum

/-!
# Writing the terms of a layout

A term without a sign is written as a product, and with a negative coefficient as the same product behind a minus. So a layout
is written as the sum of the products of its terms, each behind the sign of its coefficient, and so are its terms in any order.
-/

namespace AlgebraTutor

open AlgebraTutor.Text (IsProductText withoutBlanks joinSpaced)

namespace Tree

/-! ### Products without a sign -/

/-- The tree is a product or a quotient without a sign. -/
inductive IsTerm : Tree → Prop
  | number (n : Nat) : IsTerm (.const n)
  | factor {t : Tree} (ht : IsFactor t) : IsTerm t
  | times {t u : Tree} (ht : IsTerm t) (hu : IsFactor u) : IsTerm (binary .mul t u)
  | divided {t : Tree} (ht : IsTerm t) (n : Nat) : IsTerm (binary .div t (.const n))

variable {t t' u : Tree} {cs : List Char}

theorem IsTerm.stripParens (h : IsTerm t) : t.stripParens = t := by
  cases h with
  | number | times | divided => rfl
  | factor ht => exact ht.stripParens

theorem IsTerm.isUnsigned (h : IsTerm t) : t.IsUnsigned := by
  cases h with
  | number n => simpa using isUnsigned_integer (Int.natCast_nonneg n)
  | factor ht => exact ht.isUnsigned
  | times => exact isUnsigned_product (.inl rfl) _ _
  | divided => exact isUnsigned_product (.inr rfl) _ _

/-- A factor on the left of a product or a quotient needs no parentheses. -/
theorem binary_product {op : Op} (hop : op = .mul ∨ op = .div) (ht : t.stripParens = t) (h : 2 ≤ t.precedence) :
    binary op t u = .apply op [t, parenIf (rightNeedsParen op u.stripParens) u.stripParens] := by
  have hleft : ¬t.precedence < 2 := Nat.not_lt.mpr h
  rw [binary, ht]
  rcases hop with rfl | rfl <;> simp only [leftNeedsParen, Op.precedence, reduceCtorEq, if_false, hleft, decide_false, parenIf,
    Bool.false_eq_true]

theorem precedence_natCast (n : Nat) : (const n).precedence = atomPrecedence := by
  rw [precedence, if_neg (not_lt.mpr (Nat.cast_nonneg n))]

theorem binary_times (ht : t.stripParens = t) (h : 2 ≤ t.precedence) (hu : IsFactor u) : binary .mul t u = .apply .mul [t, u] := by
  have hright : rightNeedsParen .mul u = false := by
    have hproduct : ¬u.precedence ≤ 2 := Nat.not_le.mpr (Nat.lt_of_lt_of_le (by decide) hu.precedence)
    simp [rightNeedsParen, Op.precedence, hu.isUnsigned.2, hproduct]
  rw [binary_product (.inl rfl) ht h, hu.stripParens, hright, parenIf, if_neg Bool.false_ne_true]

theorem binary_over (ht : t.stripParens = t) (h : 2 ≤ t.precedence) (n : Nat) :
    binary .div t (.const n) = .apply .div [t, .const n] := by
  have hright : rightNeedsParen .div (.const n) = false := by
    simp [rightNeedsParen, Op.precedence, precedence_natCast, signPrecedence, atomPrecedence]
  have hplain : (const n).stripParens = .const n := rfl
  rw [binary_product (.inr rfl) ht h, hplain, hright, parenIf, if_neg Bool.false_ne_true]

theorem binary_power (w : String) (n : Nat) : binary .pow (.symbol w) (.const n) = .apply .pow [.symbol w, .const n] := by
  have hright : rightNeedsParen .pow (.const n) = false := by
    simp [rightNeedsParen, Op.precedence, precedence_natCast, atomPrecedence]
  have hplain : (const n).stripParens = .const n := rfl
  rw [binary, hplain, hright]
  rfl

theorem isProductText_of_alphanumeric (hne : cs ≠ []) (hcs : ∀ c ∈ cs, c.isAlphanum = true) : IsProductText (withoutBlanks cs) := by
  have hkept : withoutBlanks cs = cs :=
    List.filter_eq_self.mpr fun c hc => by rw [Reader.Piece.not_isBlank_of_isAlphanum (hcs c hc), Bool.not_false]
  rw [hkept]
  exact Text.isProductText_of_isAlphanum hne hcs

theorem isProductText_number {n : Nat} (hcs : (const n).chars = .ok cs) : IsProductText (withoutBlanks cs) := by
  rw [← Int.cast_natCast, chars_integer_eq_ok_iff] at hcs
  obtain ⟨-, rfl⟩ := hcs
  rw [if_neg (by omega)]
  refine isProductText_of_alphanumeric Nat.toDigits_ne_nil fun c hc => ?_
  simp [Char.isAlphanum, Text.isDigit_of_mem_digits hc]

/-- The text of an operator without a sign between two products. -/
theorem isProductText_operator {op : Op} (hop : op = .mul ∨ op = .div ∨ op = .pow) {cs ds es : List Char} {implicit : Bool}
    (hds : IsProductText (withoutBlanks ds)) (hes : IsProductText (withoutBlanks es))
    (hcs : ds ++ (separator implicit op ++ es) = cs) : IsProductText (withoutBlanks cs) := by
  have hsplit : withoutBlanks cs = withoutBlanks ds ++ (withoutBlanks (separator implicit op) ++ withoutBlanks es) := by
    simp [← hcs, withoutBlanks, List.filter_append]
  rw [hsplit]
  rcases hop with rfl | rfl | rfl
  · cases implicit with
    | true => exact hds.append hes
    | false => exact hds.operator hes (by decide)
  · exact hds.operator hes (by decide)
  · exact hds.operator hes (by decide)

theorem IsFactor.isProductText (h : IsFactor t) (hcs : t.chars = .ok cs) : IsProductText (withoutBlanks cs) := by
  have hsymbol {w : String} (hw : IsUnknown w) : IsProductText (withoutBlanks w.toList) := by
    obtain ⟨⟨c, hc, rfl⟩, -⟩ := hw
    exact isProductText_of_alphanumeric (by simp) (by simp [Char.isAlphanum, hc])
  cases h with
  | symbol hw => exact Except.ok.inj hcs ▸ hsymbol hw
  | @power w hw n =>
    rw [binary_power, chars_operator_eq_ok_iff rfl] at hcs
    obtain ⟨implicit, -, ds, hds, es, hes, hcs⟩ := hcs
    exact isProductText_operator (.inr (.inr rfl)) (Except.ok.inj hds ▸ hsymbol hw) (isProductText_number hes) hcs

theorem isTerm_integer {n : Int} (hn : 0 ≤ n) : IsTerm (.const n) := by
  obtain ⟨k, rfl⟩ := Int.eq_ofNat_of_zero_le hn
  exact .number k

theorem isTerm_foldl_mul {t : Tree} {us : List Tree} (ht : IsTerm t) (hus : ∀ u ∈ us, IsFactor u) :
    IsTerm (us.foldl (binary .mul) t) := by
  induction us generalizing t with
  | nil => exact ht
  | cons u us ih => exact ih (ht.times (hus u List.mem_cons_self)) fun v hv => hus v (List.mem_cons_of_mem u hv)

/-- What is written of a term, blanks aside, is the text of a product. -/
theorem IsTerm.isProductText (h : IsTerm t) (hcs : t.chars = .ok cs) : IsProductText (withoutBlanks cs) := by
  induction h generalizing cs with
  | number n => exact isProductText_number hcs
  | factor ht => exact ht.isProductText hcs
  | times ht hu ih =>
    rw [binary_times ht.stripParens ht.isUnsigned.1 hu, chars_operator_eq_ok_iff rfl] at hcs
    obtain ⟨implicit, -, ds, hds, es, hes, hcs⟩ := hcs
    exact isProductText_operator (.inl rfl) (ih hds) (hu.isProductText hes) hcs
  | divided ht n ih =>
    rw [binary_over ht.stripParens ht.isUnsigned.1, chars_operator_eq_ok_iff rfl] at hcs
    obtain ⟨implicit, -, ds, hds, es, hes, hcs⟩ := hcs
    exact isProductText_operator (.inr (.inl rfl)) (ih hds) (isProductText_number hes) hcs

/-! ### Terms behind a minus -/

/-- The second tree is written as the first one behind a minus, also as a factor. -/
structure IsNegated (t t' : Tree) : Prop where
  chars : ∀ cs, t.chars = .ok cs → t'.chars = .ok ('-' :: cs)
  plain : t.stripParens = t ∧ t'.stripParens = t'
  precedence : 2 ≤ t.precedence ∧ 2 ≤ t'.precedence
  implicit : ∀ u, isImplicitProduct t u = isImplicitProduct t' u

theorem IsNegated.product (h : IsNegated t t') {op : Op} (hop : op = .mul ∨ op = .div) (u : Tree) :
    IsNegated (binary op t u) (binary op t' u) := by
  have hleft := @binary_product t u op hop h.plain.1 h.precedence.1
  have hright := @binary_product t' u op hop h.plain.2 h.precedence.2
  have hunsigned (t : Tree) : (binary op t u).IsUnsigned := isUnsigned_product hop t u
  refine ⟨fun cs hcs => ?_, ⟨rfl, rfl⟩, ⟨(hunsigned t).1, (hunsigned t').1⟩, fun v => by rw [hleft, hright]; rfl⟩
  have harithmetic : op.isArithmetic = true := by rcases hop with rfl | rfl <;> rfl
  rw [hleft, chars_operator_eq_ok_iff harithmetic] at hcs
  obtain ⟨implicit, himplicit, ds, hds, es, hes, rfl⟩ := hcs
  rw [h.implicit] at himplicit
  rw [hright, chars_operator_eq_ok_iff harithmetic]
  exact ⟨implicit, himplicit, '-' :: ds, h.chars ds hds, es, hes, rfl⟩

theorem IsNegated.foldl_mul (h : IsNegated t t') (us : List Tree) :
    IsNegated (us.foldl (binary .mul) t) (us.foldl (binary .mul) t') := by
  induction us generalizing t t' with
  | nil => exact h
  | cons u us ih => exact ih (h.product (.inl rfl) u)

theorem isNegated_integer {n : Int} (hn : 0 < n) : IsNegated (.const n) (.const (-n : Int)) where
  chars cs hcs := by
    rw [chars_integer_eq_ok_iff, if_neg (by omega)] at hcs
    rw [chars_integer_eq_ok_iff, if_pos (by omega), Int.natAbs_neg]
    exact ⟨hcs.1, by rw [hcs.2]⟩
  plain := ⟨rfl, rfl⟩
  precedence := ⟨two_le_precedence_const _, two_le_precedence_const _⟩
  implicit u := by
    cases u with
    | apply op args =>
      cases op with
      | pow => cases args <;> rfl
      | _ => rfl
    | _ => rfl

theorem IsFactor.isNegated (h : IsFactor t) : IsNegated t t.negate where
  chars cs hcs := by
    rw [h.negate, chars_sign_eq_ok_iff]
    exact ⟨cs, hcs, rfl⟩
  plain := ⟨h.stripParens, stripParens_negate t⟩
  precedence := ⟨h.isUnsigned.1, by rw [h.negate]; exact (by decide : 2 ≤ signPrecedence)⟩
  implicit u := by
    rw [h.negate]
    cases h <;> rfl

end Tree

namespace Polynomial

open AlgebraTutor.Tree (IsUnknown IsTerm IsNegated)

variable {m : Monomial} {c : Rat}

theorem isTerm_termTree (hc : 0 < c) (hm : ∀ f ∈ m, IsUnknown f.1) : IsTerm (termTree m c) := by
  have hnum : 0 < c.num := Rat.num_pos.mpr hc
  have hfactors : ∀ t ∈ m.toTrees, Tree.IsFactor t := List.forall_mem_map.mpr fun f hf => isFactor_factorTree (hm f hf)
  unfold termTree
  split_ifs with hempty hden
  · unfold Tree.ofRat
    split_ifs
    · exact Tree.isTerm_integer hnum.le
    · exact (Tree.isTerm_integer hnum.le).divided c.den
  all_goals
    have hnumerator : IsTerm (Tree.integerMultiple c.num m.toTrees) := by
      unfold Tree.integerMultiple
      split_ifs
      · obtain ⟨f, m, rfl⟩ := List.exists_cons_of_ne_nil (by simpa using hempty : m ≠ [])
        exact Tree.isTerm_foldl_mul (.factor (hfactors _ List.mem_cons_self)) fun u hu => hfactors u (List.mem_cons_of_mem _ hu)
      · omega
      · exact Tree.isTerm_foldl_mul (Tree.isTerm_integer hnum.le) hfactors
  · exact hnumerator
  · exact hnumerator.divided c.den

/-- A term with the opposite coefficient is the same term behind a minus. -/
theorem isNegated_termTree (hc : 0 < c) (hm : ∀ f ∈ m, IsUnknown f.1) : IsNegated (termTree m c) (termTree m (-c)) := by
  have hnum : 0 < c.num := Rat.num_pos.mpr hc
  unfold termTree
  rw [Rat.den_neg_eq_den, Rat.num_neg_eq_neg_num]
  split_ifs with hempty hden
  · unfold Tree.ofRat
    rw [Rat.den_neg_eq_den, Rat.num_neg_eq_neg_num]
    split_ifs
    · exact Tree.isNegated_integer hnum
    · exact (Tree.isNegated_integer hnum).product (.inr rfl) _
  all_goals
    have hnumerator : IsNegated (Tree.integerMultiple c.num m.toTrees) (Tree.integerMultiple (-c.num) m.toTrees) := by
      obtain ⟨f, m, rfl⟩ := List.exists_cons_of_ne_nil (by simpa using hempty : m ≠ [])
      unfold Tree.integerMultiple
      by_cases hone : c.num = 1
      · simp only [hone, if_true, show ¬(-1 : Int) = 1 by decide, if_false]
        exact (isFactor_factorTree (hm f List.mem_cons_self)).isNegated.foldl_mul _
      · rw [if_neg hone, if_neg (by omega), if_neg (by omega), if_neg (by omega)]
        exact (Tree.isNegated_integer hnum).foldl_mul _
  · exact hnumerator
  · exact hnumerator.product (.inr rfl) _

/-! ### Terms behind their signs -/

/-- The sign of a coefficient. -/
def signOf (c : Rat) : Sign :=
  if c < 0 then .minus else .plus

/-- The text of a term without its sign, if it can be written. -/
def bodyOf (s : Monomial × Rat) : List Char :=
  match (termTree s.1 |s.2|).chars with
  | .ok cs => cs
  | .error _ => []

/-- The text of a term, and its sign. -/
def spelling (s : Monomial × Rat) : List Char × Sign :=
  (bodyOf s, signOf s.2)

variable {s : Monomial × Rat} {l : List (Monomial × Rat)}

theorem IsWritable.abs (h : IsWritable s) : IsWritable (s.1, |s.2|) := by
  rcases abs_choice s.2 with habs | habs <;> rw [habs]
  · exact h
  · exact h.neg

theorem IsWritable.chars_abs (h : IsWritable s) : (termTree s.1 |s.2|).chars = .ok (bodyOf s) := by
  obtain ⟨cs, hcs⟩ := h.abs.composed.exists_chars
  rw [bodyOf, hcs]

theorem IsWritable.isProductText (h : IsWritable s) : IsProductText (withoutBlanks (bodyOf s)) :=
  (isTerm_termTree (abs_pos.mpr h.nonzero) h.unknowns).isProductText h.chars_abs

theorem IsWritable.chars_of_neg (h : IsWritable s) (hneg : s.2 < 0) : (termTree s.1 s.2).chars = .ok ('-' :: bodyOf s) := by
  have hnegated := isNegated_termTree (neg_pos.mpr hneg) h.unknowns
  rw [neg_neg] at hnegated
  have habs := h.chars_abs
  rw [abs_of_neg hneg] at habs
  exact hnegated.chars _ habs

theorem IsWritable.signedChars (h : IsWritable s) {term : Term} (hterm : Presents term s) :
    Tree.signedChars term = .ok (spelling s) := by
  have habs := h.chars_abs
  have hbody (sign : Sign) : Tree.signedChars (termTree s.1 |s.2|, sign) = .ok (bodyOf s, sign) := by
    rw [Tree.signedChars, habs, Answer.ok_bind]
    split
    · rename_i rest hminus
      obtain ⟨d, hd, halphanum⟩ := h.isProductText.begins
      have hhead : (withoutBlanks (bodyOf s)).head? = some '-' := by rw [hminus]; rfl
      obtain rfl := Option.mem_unique hd hhead
      exact absurd halphanum (by decide)
    · rfl
  rcases lt_or_gt_of_ne h.nonzero with hneg | hpos
  · rw [spelling, signOf, if_pos hneg]
    rcases hterm with rfl | ⟨-, rfl⟩
    · rw [Tree.signedChars, h.chars_of_neg hneg]
      rfl
    · rw [← abs_of_neg hneg]
      exact hbody .minus
  · rw [spelling, signOf, if_neg hpos.le.not_gt]
    rcases hterm with rfl | ⟨hneg, -⟩
    · rw [← abs_of_pos hpos]
      simpa using hbody .plus
    · exact absurd hneg hpos.le.not_gt

/-- Terms of a sum are written like the terms of the list that they stand for. -/
theorem writeTerms_of_presents {terms : List Term} (hl : ∀ s ∈ l, IsWritable s) (h : List.Forall₂ Presents terms l) :
    Tree.writeTerms terms = .ok (joinSpaced (l.map spelling)) := by
  have hlater {terms : List Term} {l : List (Monomial × Rat)} (hl : ∀ s ∈ l, IsWritable s) (h : List.Forall₂ Presents terms l) :
      Tree.laterTerms terms = .ok ((l.map spelling).flatMap fun t => ' ' :: t.2.char :: ' ' :: t.1) := by
    induction h with
    | nil => rfl
    | cons hterm _ ih =>
      obtain ⟨hs, hl⟩ := List.forall_mem_cons.mp hl
      rw [Tree.laterTerms, hs.signedChars hterm, Answer.ok_bind, ih hl]
      simp [pure, Except.pure]
  cases h with
  | nil => rfl
  | cons hterm h =>
    obtain ⟨hs, hl⟩ := List.forall_mem_cons.mp hl
    rw [Tree.writeTerms, hs.signedChars hterm, Answer.ok_bind, hlater hl h]
    rfl

theorem chars_appendTerms {t : Tree} (ht : Tree.LaidOut t) {cs : List Char} (hcs : t.chars = .ok cs)
    (hl : ∀ s ∈ l, IsWritable s) :
    (appendTerms t l).chars = .ok (cs ++ (l.map spelling).flatMap fun t => ' ' :: t.2.char :: ' ' :: t.1) := by
  induction l generalizing t cs with
  | nil => simpa [appendTerms] using hcs
  | cons s l ih =>
    obtain ⟨m, c⟩ := s
    obtain ⟨hs, hl⟩ := List.forall_mem_cons.mp hl
    have habs := hs.chars_abs
    have hterm := laidOut_termTree hs.abs.nonzero hs.abs.unknowns
    have hunsigned := isUnsigned_termTree (abs_pos.mpr hs.nonzero) hs.unknowns
    have hlast {op : Op} (hop : op = .add ∨ op = .sub) :
        (Tree.binary op t (termTree m |c|)).chars = .ok (cs ++ (Tree.separator false op ++ bodyOf (m, c))) := by
      rw [Tree.binary_sum hop ht.stripParens hterm.1.stripParens hunsigned,
        Tree.chars_operator_eq_ok_iff (by rcases hop with rfl | rfl <;> rfl)]
      exact ⟨false, by rcases hop with rfl | rfl <;> rfl, cs, hcs, _, habs, rfl⟩
    rw [appendTerms]
    split_ifs with hneg
    · have hlater := ih (.minus ht hterm.1) (hlast (.inr rfl)) hl
      rw [abs_of_neg hneg] at hlater
      rw [hlater]
      simp [spelling, signOf, hneg, Tree.separator, Sign.char]
    · have hlater := ih (.plus ht hterm.1) (hlast (.inl rfl)) hl
      rw [abs_of_nonneg (not_lt.mp hneg)] at hlater
      rw [hlater]
      simp [spelling, signOf, hneg, Tree.separator, Sign.char]

/-- A layout is the sum of its terms. -/
theorem chars_layout (hl : ∀ s ∈ l, IsWritable s) (hne : l ≠ []) : (layout l).chars = .ok (joinSpaced (l.map spelling)) := by
  obtain ⟨s, l, rfl⟩ := List.exists_cons_of_ne_nil hne
  obtain ⟨hs, hl⟩ := List.forall_mem_cons.mp hl
  have hfirst : (termTree s.1 s.2).chars = .ok (if signOf s.2 = .plus then bodyOf s else '-' :: bodyOf s) := by
    by_cases hneg : s.2 < 0
    · simpa [signOf, hneg] using hs.chars_of_neg hneg
    · simpa [signOf, hneg, abs_of_nonneg (not_lt.mp hneg)] using hs.chars_abs
  rw [layout, chars_appendTerms (laidOut_termTree hs.nonzero hs.unknowns).1 hfirst hl]
  rfl

end Polynomial

end AlgebraTutor
