import AlgebraTutor.Pattern.Basic
import AlgebraTutor.Proofs.Polynomial.Writing

/-!
# The likeness of a term

The likeness of a term of a layout spells its monomial, unless the term is a number: the factors in their order, and a minus in
front of the first one where a product begins with it. So terms of different monomials are not alike.
-/

namespace AlgebraTutor

namespace Monomial

/-- The text of a power of an unknown. -/
def factorWord (f : String × Nat) : List Char :=
  if f.2 = 1 then f.1.toList else f.1.toList ++ '^' :: Nat.toDigits 10 f.2

end Monomial

open AlgebraTutor.Monomial (factorWord factorTree)
open AlgebraTutor.Tree (IsUnknown IsFactor IsShort)

namespace Monomial

variable {f g : String × Nat}

theorem chars_factorTree (hshort : IsShort f.2) : (factorTree f).chars = .ok (factorWord f) := by
  unfold factorTree factorWord
  split_ifs
  · rfl
  · have hexponent : (Tree.const (f.2 : Int)).chars = .ok (Nat.toDigits 10 f.2) := by
      rw [Tree.chars_integer_eq_ok_iff]
      exact ⟨hshort, if_neg (by omega)⟩
    rw [Int.cast_natCast] at hexponent
    rw [Tree.binary_power, Tree.chars_operator_eq_ok_iff rfl]
    exact ⟨false, rfl, _, rfl, _, hexponent, rfl⟩

theorem exists_letter (hname : IsUnknown f.1) : ∃ c rest, c.isAlpha = true ∧ f.1 = c.toString ∧ factorWord f = c :: rest := by
  obtain ⟨⟨c, hc, hf⟩, -⟩ := hname
  unfold factorWord
  split_ifs
  · exact ⟨c, [], hc, hf, by simp [hf]⟩
  · exact ⟨c, _, hc, hf, by rw [hf]; simp; rfl⟩

theorem digits_injective {n k : Nat} (h : Nat.toDigits 10 n = Nat.toDigits 10 k) : n = k := by
  rw [← Text.numeralValue_digits n, h, Text.numeralValue_digits]

theorem factorWord_injective (hf : IsUnknown f.1) (hg : IsUnknown g.1) (h : factorWord f = factorWord g) : f = g := by
  obtain ⟨⟨c, -, hfname⟩, -⟩ := hf
  obtain ⟨⟨d, -, hgname⟩, -⟩ := hg
  have hparts : c = d ∧ f.2 = g.2 := by
    unfold factorWord at h
    rw [hfname, hgname, Char.toString_eq_singleton, Char.toString_eq_singleton, String.toList_singleton, String.toList_singleton] at h
    split_ifs at h with hone hone' hone'
    · exact ⟨(List.cons.inj h).1, hone.trans hone'.symm⟩
    · simp at h
    · simp at h
    · obtain ⟨hname, hexponent⟩ := List.cons.inj h
      exact ⟨hname, digits_injective (List.cons.inj hexponent).2⟩
  exact Prod.ext (hfname.trans (hparts.1 ▸ hgname.symm)) hparts.2

theorem not_mem_factorWord (hf : IsUnknown f.1) {c : Char} (hc : c.isAlphanum = false) (hpower : c ≠ '^') : c ∉ factorWord f := by
  obtain ⟨⟨d, hd, hfname⟩, -⟩ := hf
  have hletter : c ≠ d := by
    rintro rfl
    simp [Char.isAlphanum, hd] at hc
  have hdigits : c ∉ Nat.toDigits 10 f.2 := fun hmem => by
    simp [Char.isAlphanum, Text.isDigit_of_mem_digits hmem] at hc
  unfold factorWord
  rw [hfname]
  split_ifs <;> simp [hletter, hpower, hdigits]

theorem minus_lt_of_isAlpha {c : Char} (hc : c.isAlpha = true) : '-' < c := by
  delta Char.isAlpha Char.isUpper Char.isLower at hc
  simp only [Bool.or_eq_true, Bool.and_eq_true, decide_eq_true_eq, ge_iff_le, UInt32.le_iff_toNat_le] at hc
  rw [Char.lt_def, UInt32.lt_iff_toNat_lt]
  simp at hc ⊢
  omega

/-- The texts of powers are in the order of the unknowns. -/
theorem not_factorWord_lt (hf : IsUnknown f.1) (hg : IsUnknown g.1) (hlt : f.1 < g.1) :
    ¬String.ofList (factorWord g) < String.ofList (factorWord f) := by
  obtain ⟨c, cs, -, hfname, hfword⟩ := exists_letter hf
  obtain ⟨d, ds, -, hgname, hgword⟩ := exists_letter hg
  have hletters : c < d := by
    rw [hfname, hgname, String.lt_iff_toList_lt] at hlt
    simpa [List.cons_lt_cons_iff] using hlt
  rw [String.lt_iff_toList_lt, String.toList_ofList, String.toList_ofList, hfword, hgword, List.cons_lt_cons_iff]
  rintro (hless | ⟨heq, -⟩)
  · exact lt_asymm hletters hless
  · exact hletters.ne' heq

theorem not_factorWord_lt_minus (hg : IsUnknown g.1) (cs : List Char) :
    ¬String.ofList (factorWord g) < String.ofList ('-' :: cs) := by
  obtain ⟨d, ds, hd, -, hgword⟩ := exists_letter hg
  rw [String.lt_iff_toList_lt, String.toList_ofList, String.toList_ofList, hgword, List.cons_lt_cons_iff]
  rintro (hless | ⟨heq, -⟩)
  · exact lt_asymm (minus_lt_of_isAlpha hd) hless
  · exact (minus_lt_of_isAlpha hd).ne' heq

end Monomial

namespace Tree

/-! ### Sorting texts -/

theorem sortTexts_eq_self {ts : List String} (h : ts.Pairwise fun s t => ¬t < s) : sortTexts ts = ts := by
  induction ts with
  | nil => rfl
  | cons s ts ih =>
    obtain ⟨hs, hts⟩ := List.pairwise_cons.mp h
    have hsort : sortTexts (s :: ts) = insertText s (sortTexts ts) := rfl
    rw [hsort, ih hts]
    cases ts with
    | nil => rfl
    | cons t ts => rw [insertText, if_neg (hs t List.mem_cons_self)]

theorem insertText_eq_orderedInsert (s : String) (ts : List String) : insertText s ts = ts.orderedInsert (· ≤ ·) s := by
  induction ts with
  | nil => rfl
  | cons t ts ih =>
    rw [insertText, List.orderedInsert_cons, ih]
    split_ifs with hlt hle hle
    · exact absurd hle (not_le.mpr hlt)
    · rfl
    · rfl
    · exact absurd (not_lt.mp hlt) hle

theorem sortTexts_eq_insertionSort (ts : List String) : sortTexts ts = ts.insertionSort (· ≤ ·) := by
  induction ts with
  | nil => rfl
  | cons t ts ih => rw [List.insertionSort_cons, ← ih, ← insertText_eq_orderedInsert]; rfl

theorem sortTexts_perm (ts : List String) : (sortTexts ts).Perm ts := by
  rw [sortTexts_eq_insertionSort]
  exact List.perm_insertionSort _ ts

theorem sortTexts_eq_of_perm {ts us : List String} (h : ts.Perm us) : sortTexts ts = sortTexts us := by
  rw [sortTexts_eq_insertionSort, sortTexts_eq_insertionSort]
  exact List.Perm.eq_of_pairwise (fun a b _ _ => le_antisymm) (List.pairwise_insertionSort _ ts) (List.pairwise_insertionSort _ us)
    (((List.perm_insertionSort _ ts).trans h).trans (List.perm_insertionSort _ us).symm)

/-! ### Factors -/

variable {t u : Tree}

theorem isConstant_eq_false {v : String} (h : v ∈ t.unknowns) : t.isConstant = false := by
  rw [isConstant, List.isEmpty_eq_false_iff]
  exact List.ne_nil_of_mem h

theorem IsFactor.isConstant (h : IsFactor t) : t.isConstant = false := by
  cases h with
  | @symbol w hw => exact isConstant_eq_false (mem_unknowns.mpr ⟨by simp [nodes], hw.2⟩ : w ∈ _)
  | @power w hw n =>
    exact isConstant_eq_false (mem_unknowns_binary.mpr (.inl (mem_unknowns.mpr ⟨by simp [nodes], hw.2⟩)) : w ∈ _)

theorem isConstant_binary_right {op : Op} (h : u.isConstant = false) : (binary op t u).isConstant = false := by
  obtain ⟨v, hv⟩ := List.exists_mem_of_ne_nil _ (List.isEmpty_eq_false_iff.mp h)
  exact isConstant_eq_false (mem_unknowns_binary.mpr (.inr hv))

theorem isConstant_sign (h : t.isConstant = false) : (apply .sub [t]).isConstant = false := by
  obtain ⟨v, hv⟩ := List.exists_mem_of_ne_nil _ (List.isEmpty_eq_false_iff.mp h)
  exact isConstant_eq_false (mem_unknowns_apply.mpr ⟨t, List.mem_cons_self, hv⟩)

theorem IsFactor.factorsFrom (h : IsFactor t) : factorsFrom t = [t] := by
  cases h <;> rfl

theorem factorsFrom_foldl_mul {us : List Tree} (hplain : t.stripParens = t) (hprecedence : 2 ≤ t.precedence)
    (hus : ∀ u ∈ us, IsFactor u) : factorsFrom (us.foldl (binary .mul) t) = factorsFrom t ++ us := by
  induction us generalizing t with
  | nil => simp
  | cons u us ih =>
    obtain ⟨hu, hus⟩ := List.forall_mem_cons.mp hus
    have hproduct : (binary .mul t u).IsUnsigned := isUnsigned_product (.inl rfl) t u
    rw [List.foldl_cons, ih (t := binary .mul t u) rfl hproduct.1 hus, binary_times hplain hprecedence hu, factorsFrom, hu.factorsFrom,
      List.append_assoc, List.singleton_append]

theorem plain_foldl_mul (ht : t.stripParens = t) (hprecedence : 2 ≤ t.precedence) (us : List Tree) :
    (us.foldl (binary .mul) t).stripParens = us.foldl (binary .mul) t ∧ 2 ≤ (us.foldl (binary .mul) t).precedence := by
  induction us generalizing t with
  | nil => exact ⟨ht, hprecedence⟩
  | cons u us ih =>
    have hproduct : (binary .mul t u).IsUnsigned := isUnsigned_product (.inl rfl) t u
    exact ih (t := binary .mul t u) rfl hproduct.1

/-! ### The likeness of each shape of term -/

theorem likenessOf_paren (t : Tree) : likenessOf true (.paren t) = likenessOf true t := rfl

theorem likenessOf_unknown {name : String} (h : isNamedConstant name = false) (withinParens : Bool) :
    likenessOf withinParens (.symbol name) = .ok name := by
  change (if isNamedConstant name then _ else _) = _
  rw [h, if_neg Bool.false_ne_true]

theorem likenessOf_power (h : (apply .pow [t, u]).isConstant = false) (withinParens : Bool) :
    likenessOf withinParens (.apply .pow [t, u]) = text (.apply .pow [t, u]) := by
  change (if (apply .pow [t, u]).isConstant then _ else _) = _
  rw [h, if_neg Bool.false_ne_true]

/-- The sign in front of a term does not matter. -/
theorem likenessOf_sign (h : t.isConstant = false) (withinParens : Bool) :
    likenessOf withinParens (.apply .sub [t]) = likenessOf true t := by
  change (if t.isConstant then _ else _) = _
  rw [h, if_neg Bool.false_ne_true]

/-- The likeness of a product is that of its factors with an unknown. -/
theorem likenessOf_product (h : (apply .mul [t, u]).isConstant = false) {texts : List String}
    (htexts : unknownFactors (apply .mul [t, u]).factors = .ok texts) (withinParens : Bool) :
    likenessOf withinParens (.apply .mul [t, u]) = .ok ("*".intercalate (sortTexts texts)) := by
  change (if (apply .mul [t, u]).isConstant then _ else _ : Answer String) = _
  rw [h, if_neg Bool.false_ne_true, htexts]
  rfl

/-- A number as the divisor does not matter. -/
theorem likenessOf_quotient (h : (apply .div [t, u]).isConstant = false) (hu : u.isConstant = true) (withinParens : Bool) :
    likenessOf withinParens (.apply .div [t, u]) = likenessOf true t := by
  change (if (apply .div [t, u]).isConstant then _ else if u.isConstant then _ else _) = _
  rw [h, if_neg Bool.false_ne_true, hu, if_pos rfl]

theorem likenessOf_numberQuotient (h : (apply .div [t, u]).isConstant = true) (withinParens : Bool) :
    likenessOf withinParens (.apply .div [t, u]) = .ok constantLikeness := by
  change (if (apply .div [t, u]).isConstant then _ else _ : Answer String) = _
  rw [h, if_pos rfl]

theorem likenessOf_stripParens (t : Tree) : likenessOf true t.stripParens = likenessOf true t := by
  fun_induction stripParens t with
  | case1 t ih => rw [ih, likenessOf_paren]
  | case2 t h => rfl

theorem likenessOf_parenIf (needed : Bool) (t : Tree) : likenessOf true (parenIf needed t) = likenessOf true t := by
  cases needed with
  | false => rfl
  | true => rw [parenIf, if_pos rfl, likenessOf_paren]

theorem likenessOf_div (ht : (binary .div t u).isConstant = false) (hu : u.isConstant = true) (withinParens : Bool) :
    likenessOf withinParens (binary .div t u) = likenessOf true t := by
  have hright : (parenIf (rightNeedsParen .div u.stripParens) u.stripParens).isConstant = true := by
    rw [isConstant_parenIf, isConstant_stripParens, hu]
  rw [binary] at ht ⊢
  rw [likenessOf_quotient ht hright, likenessOf_parenIf, likenessOf_stripParens]

theorem likenessOf_foldl_mul {us : List Tree} (hne : us ≠ []) (ht : t.stripParens = t) (hprecedence : 2 ≤ t.precedence)
    (hus : ∀ u ∈ us, IsFactor u) {texts : List String} (htexts : unknownFactors (factorsFrom t ++ us) = .ok texts)
    (hsorted : texts.Pairwise fun s t => ¬t < s) (withinParens : Bool) :
    likenessOf withinParens (us.foldl (binary .mul) t) = .ok ("*".intercalate texts) := by
  have hfactors := factorsFrom_foldl_mul ht hprecedence hus
  obtain ⟨init, u, rfl⟩ := (List.eq_nil_or_concat us).resolve_left hne
  have hu : IsFactor u := hus u (by simp)
  have hwhole : (init ++ [u]).foldl (binary .mul) t = binary .mul (init.foldl (binary .mul) t) u := by simp
  have hconstant : (binary .mul (init.foldl (binary .mul) t) u).isConstant = false := isConstant_binary_right hu.isConstant
  obtain ⟨hplain, hinit⟩ := plain_foldl_mul ht hprecedence init
  rw [List.concat_eq_append, hwhole] at hfactors ⊢
  rw [binary_times hplain hinit hu] at hfactors hconstant ⊢
  rw [List.concat_eq_append, ← hfactors] at htexts
  rw [likenessOf_product hconstant htexts, sortTexts_eq_self hsorted]

end Tree

namespace Polynomial

variable {m : Monomial} {c : Rat}

/-- The factors of a monomial, behind a minus or not. -/
def monomialWord (minus : Bool) (m : Monomial) : String :=
  String.ofList ((if minus then ['-'] else []) ++ ['*'].intercalate (m.map factorWord))

theorem intercalate_words (minus : Bool) (f : String × Nat) (m : Monomial) :
    "*".intercalate (String.ofList ((if minus then ['-'] else []) ++ factorWord f) :: m.map fun g => String.ofList (factorWord g)) =
      monomialWord minus (f :: m) := by
  apply String.toList_injective
  rw [String.toList_intercalate, monomialWord, String.toList_ofList]
  cases m <;> cases minus <;> simp [Function.comp_def, List.intercalate]

/-- The factors of a monomial are in the order of their texts, a minus in front of the first one or not. -/
theorem pairwise_words (minus : Bool) {f : String × Nat} {m : Monomial} (hm : Monomial.Canonical (f :: m))
    (hunknowns : ∀ g ∈ f :: m, IsUnknown g.1) :
    (String.ofList ((if minus then ['-'] else []) ++ factorWord f) :: m.map fun g => String.ofList (factorWord g)).Pairwise
      fun s t => ¬t < s := by
  obtain ⟨hf, hlater⟩ := List.forall_mem_cons.mp hunknowns
  obtain ⟨hbefore, -, hm⟩ := Monomial.canonical_cons.mp hm
  rw [List.pairwise_cons, List.forall_mem_map, List.pairwise_map]
  refine ⟨fun g hg => ?_, hm.increasing.imp_of_mem fun hg hk hlt => ?_⟩
  · cases minus with
    | false => exact Monomial.not_factorWord_lt hf (hlater g hg) (hbefore g hg)
    | true => exact Monomial.not_factorWord_lt_minus (hlater g hg) _
  · exact Monomial.not_factorWord_lt (hlater _ hg) (hlater _ hk) hlt

theorem unknownFactors_toTrees {m : Monomial} (hunknowns : ∀ f ∈ m, IsUnknown f.1) (hshort : ∀ f ∈ m, IsShort f.2) :
    Tree.unknownFactors m.toTrees = .ok (m.map fun f => String.ofList (factorWord f)) := by
  induction m with
  | nil => rfl
  | cons f m ih =>
    obtain ⟨hf, hunknowns⟩ := List.forall_mem_cons.mp hunknowns
    obtain ⟨hfshort, hshort⟩ := List.forall_mem_cons.mp hshort
    have htext : (factorTree f).text = .ok (String.ofList (factorWord f)) := by rw [Tree.text, Monomial.chars_factorTree hfshort]; rfl
    have hrest := ih hunknowns hshort
    rw [Monomial.toTrees] at hrest
    rw [Monomial.toTrees, List.map_cons, Tree.unknownFactors, (isFactor_factorTree hf).isConstant, htext, hrest]
    rfl

theorem likenessOf_factorTree {f : String × Nat} (hf : IsUnknown f.1) (hshort : IsShort f.2) (withinParens : Bool) :
    Tree.likenessOf withinParens (factorTree f) = .ok (String.ofList (factorWord f)) := by
  have hchars := Monomial.chars_factorTree hshort
  have hconstant := (isFactor_factorTree hf).isConstant
  unfold factorTree at hchars hconstant ⊢
  split_ifs at hchars hconstant ⊢
  · rw [Tree.likenessOf_unknown hf.2, ← Except.ok.inj hchars, String.ofList_toList]
  · rw [Tree.binary_power] at hchars hconstant ⊢
    rw [Tree.likenessOf_power hconstant, Tree.text, hchars]
    rfl

section Multiples

variable {f : String × Nat}

theorem likenessOf_productOf (hm : Monomial.Canonical (f :: m)) (hunknowns : ∀ g ∈ f :: m, IsUnknown g.1)
    (hshort : ∀ g ∈ f :: m, IsShort g.2) (withinParens : Bool) :
    Tree.likenessOf withinParens (Tree.productOf (Monomial.toTrees (f :: m))) = .ok (monomialWord false (f :: m)) := by
  obtain ⟨hf, hlater⟩ := List.forall_mem_cons.mp hunknowns
  have hfactor := isFactor_factorTree hf
  have hfactors : ∀ u ∈ Monomial.toTrees m, IsFactor u := List.forall_mem_map.mpr fun g hg => isFactor_factorTree (hlater g hg)
  rw [← intercalate_words]
  cases m with
  | nil => simpa [Monomial.toTrees, Tree.productOf] using likenessOf_factorTree hf (hshort f List.mem_cons_self) withinParens
  | cons g m =>
    refine Tree.likenessOf_foldl_mul (by simp [Monomial.toTrees]) hfactor.stripParens hfactor.isUnsigned.1 hfactors ?_
      (pairwise_words false hm hunknowns) withinParens
    rw [hfactor.factorsFrom]
    exact unknownFactors_toTrees hunknowns hshort

/-- The minus in front of one power does not matter, that in front of a product does. -/
theorem likenessOf_negatedProduct (hm : Monomial.Canonical (f :: m)) (hunknowns : ∀ g ∈ f :: m, IsUnknown g.1)
    (hshort : ∀ g ∈ f :: m, IsShort g.2) (withinParens : Bool) :
    Tree.likenessOf withinParens (Tree.productOf (Tree.negateFirst (Monomial.toTrees (f :: m)))) =
      .ok (monomialWord (decide (m ≠ [])) (f :: m)) := by
  obtain ⟨hf, hlater⟩ := List.forall_mem_cons.mp hunknowns
  obtain ⟨hfshort, hlaterShort⟩ := List.forall_mem_cons.mp hshort
  have hfactor := isFactor_factorTree hf
  have hfactors : ∀ u ∈ Monomial.toTrees m, IsFactor u := List.forall_mem_map.mpr fun g hg => isFactor_factorTree (hlater g hg)
  rw [← intercalate_words]
  cases m with
  | nil =>
    have hsign : Tree.productOf (Tree.negateFirst (Monomial.toTrees [f])) = (factorTree f).negate := rfl
    rw [hsign, hfactor.negate, Tree.likenessOf_sign hfactor.isConstant]
    simpa using likenessOf_factorTree hf hfshort true
  | cons g m =>
    rw [decide_eq_true (List.cons_ne_nil g m)]
    refine Tree.likenessOf_foldl_mul (by simp [Monomial.toTrees]) (Tree.stripParens_negate _) hfactor.isNegated.precedence.2 hfactors ?_
      (pairwise_words true hm hunknowns) withinParens
    have htext : (factorTree f).negate.text = .ok (String.ofList ('-' :: factorWord f)) := by
      rw [Tree.text, hfactor.isNegated.chars _ (Monomial.chars_factorTree hfshort)]
      rfl
    have hconstant : (factorTree f).negate.isConstant = false := by
      rw [hfactor.negate]
      exact Tree.isConstant_sign hfactor.isConstant
    have hsign : Tree.factorsFrom (factorTree f).negate = [(factorTree f).negate] := by
      rw [hfactor.negate]
      rfl
    rw [hsign, List.singleton_append, Tree.unknownFactors, hconstant, htext, unknownFactors_toTrees hlater hlaterShort]
    rfl

theorem likenessOf_numberProduct (n : Int) (hm : Monomial.Canonical (f :: m)) (hunknowns : ∀ g ∈ f :: m, IsUnknown g.1)
    (hshort : ∀ g ∈ f :: m, IsShort g.2) (withinParens : Bool) :
    Tree.likenessOf withinParens (Tree.productOf (.const n :: Monomial.toTrees (f :: m))) = .ok (monomialWord false (f :: m)) := by
  have hnumber : (Tree.const n).isConstant = true := rfl
  have hfactors : Tree.factorsFrom (.const n) = [.const n] := rfl
  rw [← intercalate_words]
  refine Tree.likenessOf_foldl_mul (by simp [Monomial.toTrees]) rfl (Tree.two_le_precedence_const _) ?_ ?_
    (pairwise_words false hm hunknowns) withinParens
  · exact List.forall_mem_map.mpr fun g hg => isFactor_factorTree (hunknowns g hg)
  · rw [hfactors, List.singleton_append, Tree.unknownFactors, hnumber, if_pos rfl]
    exact unknownFactors_toTrees hunknowns hshort

end Multiples

theorem likenessOf_integerMultiple {n : Int} (hne : m ≠ []) (hm : m.Canonical) (hunknowns : ∀ f ∈ m, IsUnknown f.1)
    (hshort : ∀ f ∈ m, IsShort f.2) (withinParens : Bool) :
    ∃ minus, Tree.likenessOf withinParens (Tree.integerMultiple n m.toTrees) = .ok (monomialWord minus m) := by
  obtain ⟨f, m, rfl⟩ := List.exists_cons_of_ne_nil hne
  unfold Tree.integerMultiple
  split_ifs
  · exact ⟨_, likenessOf_productOf hm hunknowns hshort withinParens⟩
  · exact ⟨_, likenessOf_negatedProduct hm hunknowns hshort withinParens⟩
  · exact ⟨_, likenessOf_numberProduct n hm hunknowns hshort withinParens⟩

theorem likeness_ofRat (c : Rat) : Tree.likeness (Tree.ofRat c) = .ok Tree.constantLikeness := by
  have hconstant := Tree.isConstant_ofRat c
  unfold Tree.ofRat at hconstant ⊢
  split_ifs at hconstant ⊢
  · rfl
  · exact Tree.likenessOf_numberQuotient hconstant false

/-- The likeness of a term: that of the numbers, or its monomial behind a minus or not. -/
theorem exists_likeness (h : IsWritable (m, c)) (hm : m.Canonical) : ∃ key, Tree.likeness (termTree m c) = .ok key ∧
    if m = [] then key = Tree.constantLikeness else ∃ minus, key = monomialWord minus m := by
  by_cases hempty : m = []
  · refine ⟨Tree.constantLikeness, ?_, if_pos hempty ▸ rfl⟩
    subst hempty
    exact likeness_ofRat c
  · have hconstant := h.isConstant hm hempty
    simp only [if_neg hempty]
    unfold termTree at hconstant ⊢
    rw [if_neg (by simpa using hempty)] at hconstant ⊢
    by_cases hden : c.den = 1
    · simp only [if_pos hden]
      obtain ⟨minus, hminus⟩ := likenessOf_integerMultiple (n := c.num) hempty hm h.unknowns h.short.exponents false
      exact ⟨_, hminus, minus, rfl⟩
    · simp only [if_neg hden] at hconstant ⊢
      obtain ⟨minus, hminus⟩ := likenessOf_integerMultiple (n := c.num) hempty hm h.unknowns h.short.exponents true
      refine ⟨_, ?_, minus, rfl⟩
      rw [Tree.likeness, Tree.likenessOf_div hconstant rfl, hminus]

/-- What begins a monomial is a letter. -/
theorem exists_letter_of_words (hne : m ≠ []) (hm : ∀ f ∈ m, IsUnknown f.1) :
    ∃ c rest, c.isAlpha = true ∧ ['*'].intercalate (m.map factorWord) = c :: rest := by
  obtain ⟨f, m, rfl⟩ := List.exists_cons_of_ne_nil hne
  obtain ⟨c, rest, hc, -, hword⟩ := Monomial.exists_letter (hm f List.mem_cons_self)
  cases m with
  | nil => exact ⟨c, rest, hc, by simp [List.intercalate, hword]⟩
  | cons g m => exact ⟨c, _, hc, by simp [List.intercalate, hword]; rfl⟩

theorem eq_of_map_factorWord {m m' : Monomial} (hm : ∀ f ∈ m, IsUnknown f.1) (hm' : ∀ f ∈ m', IsUnknown f.1)
    (h : m.map factorWord = m'.map factorWord) : m = m' := by
  induction m generalizing m' with
  | nil => exact (List.map_eq_nil_iff.mp h.symm).symm
  | cons f m ih =>
    obtain ⟨g, m', rfl, hfirst, hrest⟩ := List.map_eq_cons_iff.mp h.symm
    obtain ⟨hf, hm⟩ := List.forall_mem_cons.mp hm
    obtain ⟨hg, hm'⟩ := List.forall_mem_cons.mp hm'
    rw [Monomial.factorWord_injective hf hg hfirst.symm, ih hm hm' hrest.symm]

theorem words_injective {m m' : Monomial} (hne : m ≠ []) (hne' : m' ≠ []) (hm : ∀ f ∈ m, IsUnknown f.1)
    (hm' : ∀ f ∈ m', IsUnknown f.1) (h : ['*'].intercalate (m.map factorWord) = ['*'].intercalate (m'.map factorWord)) : m = m' := by
  have hsplit {m : Monomial} (hne : m ≠ []) (hm : ∀ f ∈ m, IsUnknown f.1) :
      (['*'].intercalate (m.map factorWord)).splitOn '*' = m.map factorWord :=
    List.splitOn_intercalate '*' (List.forall_mem_map.mpr fun f hf => Monomial.not_mem_factorWord (hm f hf) (by decide) (by decide))
      (by simpa using hne)
  have hwords : m.map factorWord = m'.map factorWord := by rw [← hsplit hne hm, ← hsplit hne' hm', h]
  exact eq_of_map_factorWord hm hm' hwords

theorem monomialWord_injective {minus minus' : Bool} {m m' : Monomial} (hne : m ≠ []) (hne' : m' ≠ [])
    (hm : ∀ f ∈ m, IsUnknown f.1) (hm' : ∀ f ∈ m', IsUnknown f.1) (h : monomialWord minus m = monomialWord minus' m') : m = m' := by
  obtain ⟨c, rest, hc, hword⟩ := exists_letter_of_words hne hm
  obtain ⟨d, rest', hd, hword'⟩ := exists_letter_of_words hne' hm'
  have hminus {c : Char} (hc : c.isAlpha = true) : c ≠ '-' := by
    rintro rfl
    exact absurd hc (by decide)
  refine words_injective hne hne' hm hm' ?_
  rw [monomialWord, monomialWord, hword, hword', String.ofList_inj] at h
  rw [hword, hword']
  cases minus <;> cases minus'
  · simpa using h
  · exact absurd (List.cons.inj h).1 (hminus hc)
  · exact absurd (List.cons.inj h).1.symm (hminus hd)
  · simpa using h

theorem monomialWord_ne (minus : Bool) (hne : m ≠ []) (hm : ∀ f ∈ m, IsUnknown f.1) :
    monomialWord minus m ≠ Tree.constantLikeness := by
  intro h
  obtain ⟨c, rest, hc, hword⟩ := exists_letter_of_words hne hm
  have hchars := congrArg String.toList h
  rw [monomialWord, String.toList_ofList, hword] at hchars
  have hone : Tree.constantLikeness.toList = ['1'] := rfl
  rw [hone] at hchars
  cases minus with
  | false =>
    obtain rfl : c = '1' := (List.cons.inj hchars).1
    exact absurd hc (by decide)
  | true => exact absurd (List.cons.inj hchars).1 (by decide)

end Polynomial

end AlgebraTutor
