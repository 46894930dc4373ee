import Mathlib.Data.Prod.Lex
import Mathlib.Data.String.Basic
import AlgebraTutor.Proofs.Canonical.Filing
import AlgebraTutor.Proofs.Tree.Valuation

/-!
# The places of terms

Sorting puts the terms of a tree in the order of their keys: constants last, and the others by their unknown and by descending
power. Reading them back may set a minus in front of the first factor of a term, which changes neither the unknown that the
term is filed under nor its power; so the terms of the tree that is read stand in that order too. Any order of the
terms is read as a tree of the same value.
-/

namespace AlgebraTutor

/-- The fields of a key, in the order in which they are compared. -/
def TermKey.rank (key : TermKey) : Bool ×ₗ String ×ₗ ℚ ×ₗ ℚ :=
  toLex (key.isConstant, toLex (key.unknown, toLex (key.descent, key.value)))

theorem TermKey.le_iff {a b : TermKey} : a.le b = true ↔ a.rank ≤ b.rank := by
  simp only [TermKey.le, TermKey.rank, Prod.Lex.toLex_le_toLex]
  split_ifs with hconstant
  · simp at hconstant
    cases ha : a.isConstant <;> cases hb : b.isConstant <;> simp_all
  all_goals simp_all

namespace Tree

/-! ### Sorted keys -/

instance : Std.Total KeyedLe :=
  ⟨fun a b => by simpa only [KeyedLe, TermKey.le_iff] using le_total a.1.rank b.1.rank⟩

instance : IsTrans (TermKey × Term) KeyedLe :=
  ⟨fun a b c hab hbc => by simpa only [KeyedLe, TermKey.le_iff] using (TermKey.le_iff.mp hab).trans (TermKey.le_iff.mp hbc)⟩

theorem termKey_of_keyTerms {terms : List Term} {keyed : List (TermKey × Term)} (h : keyTerms terms = .ok keyed) :
    ∀ pair ∈ keyed, termKey pair.2 = .ok pair.1 := by
  induction terms generalizing keyed with
  | nil =>
    obtain rfl := Except.ok.inj h
    simp
  | cons term terms ih =>
    obtain ⟨key, hkey, h⟩ := Answer.bind_eq_ok_iff.mp h
    obtain ⟨rest, hrest, heq⟩ := Answer.bind_eq_ok_iff.mp h
    obtain rfl := Answer.pure_eq_ok_iff.mp heq
    exact List.forall_mem_cons.mpr ⟨hkey, ih hrest⟩

/-- Sorted terms have ascending keys. -/
theorem pairwise_of_sortTerms {terms sorted : List Term} (h : sortTerms terms = .ok sorted) :
    sorted.Pairwise fun a b => ∃ k l, termKey a = .ok k ∧ termKey b = .ok l ∧ k.rank ≤ l.rank := by
  obtain ⟨keyed, hkeyed, heq⟩ := Answer.bind_eq_ok_iff.mp h
  obtain rfl := Answer.pure_eq_ok_iff.mp heq
  have hkeys : ∀ pair ∈ keyed.insertionSort KeyedLe, termKey pair.2 = .ok pair.1 :=
    fun pair hpair => termKey_of_keyTerms hkeyed pair ((List.perm_insertionSort KeyedLe keyed).subset hpair)
  rw [foldr_insertKeyed, List.pairwise_map]
  refine (List.pairwise_insertionSort KeyedLe keyed).imp_of_mem fun {a b} ha hb hle => ?_
  exact ⟨a.1, b.1, hkeys a ha, hkeys b hb, TermKey.le_iff.mp hle⟩

/-! ### Filing -/

variable {t u w : Tree}

/-- A factor without an unknown is not filed. -/
theorem filing?_of_isConstant {isFactor : Bool} (hfactor : isFactor = true) (h : t.isConstant = true) :
    filing? isFactor t = .ok none := by
  fun_induction filing? isFactor t <;> simp_all [isConstant_paren, isConstant_apply_two, isConstant_apply_one, isConstant_symbol]

/-- A tree with an unknown is filed. -/
theorem filing?_ne_none {isFactor : Bool} (h : t.isConstant = false) : filing? isFactor t ≠ .ok none := by
  fun_induction filing? isFactor t
  case case2 isFactor left right ihl ihr =>
    intro hnone
    obtain ⟨first, hfirst, hnone⟩ := Answer.bind_eq_ok_iff.mp hnone
    cases first with
    | some found => simp [pure, Except.pure] at hnone
    | none =>
      obtain ⟨second, hsecond, hnone⟩ := Answer.bind_eq_ok_iff.mp hnone
      cases second with
      | some found => simp [pure, Except.pure] at hnone
      | none =>
        have hconstant : left.isConstant = true ∧ right.isConstant = true :=
          ⟨by simpa using fun h => ihl h hfirst, by simpa using fun h => ihr h hsecond⟩
        simp [isConstant_apply_two, hconstant] at h
  all_goals simp_all [isConstant_paren, isConstant_apply_two, isConstant_apply_one, isConstant_symbol]

theorem exists_filing?_eq (h : t.isConstant = false) (isFactor : Bool) :
    (∃ failure, filing? isFactor t = .error failure) ∨ ∃ found, filing? isFactor t = .ok (some found) := by
  cases hfiling : filing? isFactor t with
  | error failure => exact .inl ⟨failure, rfl⟩
  | ok found =>
    cases found with
    | none => exact absurd hfiling (filing?_ne_none h)
    | some found => exact .inr ⟨found, rfl⟩

/-- A product is filed with its first factor that has an unknown. -/
theorem filing?_product (h : (apply .mul [t, u]).isConstant = false) (isFactor : Bool) :
    filing? isFactor (apply .mul [t, u]) = filing? true (if t.isConstant then u else t) := by
  rw [filing?]
  cases ht : t.isConstant with
  | true =>
    rw [isConstant_apply_two, ht, Bool.true_and] at h
    rw [filing?_of_isConstant rfl ht, Answer.ok_bind]
    rcases exists_filing?_eq h true with ⟨failure, hu⟩ | ⟨found, hu⟩
    · rw [hu, if_pos rfl, hu]
      rfl
    · rw [hu, if_pos rfl, hu]
      rfl
  | false =>
    rcases exists_filing?_eq ht true with ⟨failure, hleft⟩ | ⟨found, hleft⟩
    · simp only [hleft, Bool.false_eq_true, if_false]
      rfl
    · simp only [hleft, Bool.false_eq_true, if_false]
      rfl

/-- What has an unknown is filed alike as a term and as a factor. -/
theorem filing?_eq_filing?_true (h : t.isConstant = false) (isFactor : Bool) : filing? isFactor t = filing? true t := by
  fun_induction filing? isFactor t
  case case2 isFactor left right _ _ =>
    change filing? isFactor (apply .mul [left, right]) = _
    rw [filing?_product h, filing?_product h]
  all_goals simp_all [filing?, isConstant_paren, isConstant_apply_two, isConstant_apply_one, isConstant_symbol]

theorem filing?_quotient (h : (apply .div [t, u]).isConstant = false) (isFactor : Bool) :
    filing? isFactor (apply .div [t, u]) = filing? true (if t.isConstant then u else t) := by
  rw [isConstant_apply_two] at h
  rw [filing?]
  cases ht : t.isConstant with
  | true =>
    have hu : u.isConstant = false := by simpa [ht] using h
    simpa [hu] using filing?_eq_filing?_true hu false
  | false => simpa using filing?_eq_filing?_true ht false

theorem filing?_stripParens (isFactor : Bool) (t : Tree) : filing? isFactor t.stripParens = filing? isFactor t := by
  induction t using stripParens.induct with
  | case1 content ih => rw [stripParens, ih, filing?]
  | case2 t h => rw [stripParens]; simpa using h

theorem unknownAndPower_of_not_isConstant (h : t.isConstant = false) {found : String × Rat} :
    t.unknownAndPower = .ok found ↔ filing? true t = .ok (some found) := by
  rw [unknownAndPower, filing?_eq_filing?_true h]
  rcases exists_filing?_eq h true with ⟨failure, hfiling⟩ | ⟨found', hfiling⟩
  · simp [hfiling, Answer.bind_eq_ok_iff]
  · rw [hfiling, Answer.ok_bind]
    exact ⟨fun h => by rw [Answer.pure_eq_ok_iff.mp h], fun h => by
      rw [Option.some.inj (Except.ok.inj h)]; rfl⟩

/-! ### Terms that are filed alike -/

/-- The trees are both constants, or are both filed under one unknown and one power. -/
def IsFiledAs (t u : Tree) : Prop :=
  u.isConstant = t.isConstant ∧ (t.isConstant = false → filing? true u = filing? true t)

namespace IsFiledAs

theorem refl (t : Tree) : IsFiledAs t t :=
  ⟨rfl, fun _ => rfl⟩

theorem symm (h : IsFiledAs t u) : IsFiledAs u t :=
  ⟨h.1.symm, fun hu => (h.2 (h.1 ▸ hu)).symm⟩

theorem stripParens (t : Tree) : IsFiledAs t t.stripParens :=
  ⟨isConstant_stripParens t, fun _ => filing?_stripParens true t⟩

theorem trans (h : IsFiledAs t u) (h' : IsFiledAs u w) : IsFiledAs t w :=
  ⟨h'.1.trans h.1, fun ht => (h'.2 (h.1.trans ht)).trans (h.2 ht)⟩

/-- A minus in front of the first factor changes nothing about the unknown and its power. -/
theorem of_signs (h : Signs t u) : IsFiledAs t u := by
  induction h with
  | factor t =>
    rcases negate_cases t with ⟨value, hvalue, hnegate⟩ | hnegate
    · rw [hnegate]
      have hconst (value : Rat) : (const value).isConstant = true := rfl
      have ht : t.isConstant = true := by rw [← isConstant_stripParens, hvalue, hconst]
      exact ⟨by rw [ht, hconst], fun hnot => by simp [ht] at hnot⟩
    · have hsign : (apply .sub [parenIf (t.stripParens.precedence ≤ signPrecedence) t.stripParens]).isConstant = t.isConstant := by
        rw [isConstant_apply_one, isConstant_parenIf, isConstant_stripParens]
      rw [hnegate]
      refine ⟨hsign, fun ht => ?_⟩
      rw [← filing?_eq_filing?_true (hsign.trans ht) false, filing?, filing?_parenIf, filing?_stripParens]
      simpa using filing?_eq_filing?_true ht false
  | @product op t u hop _ r ih =>
    have hbinary (t : Tree) : (Tree.binary op t r).isConstant = (t.isConstant && r.isConstant) := by
      rw [Tree.binary, isConstant_apply_two]
      simp only [isConstant_parenIf, isConstant_stripParens]
    have hfiling (t : Tree) (h : (Tree.binary op t r).isConstant = false) :
        filing? true (Tree.binary op t r) = filing? true (if t.isConstant then r else t) := by
      rcases hop with rfl | rfl
      · rw [Tree.binary] at h ⊢
        rw [filing?_product h]
        simp only [isConstant_parenIf, isConstant_stripParens]
        split <;> rw [filing?_parenIf, filing?_stripParens]
      · rw [Tree.binary] at h ⊢
        rw [filing?_quotient h]
        simp only [isConstant_parenIf, isConstant_stripParens]
        split <;> rw [filing?_parenIf, filing?_stripParens]
    refine ⟨by rw [hbinary, hbinary, ih.1], fun h => ?_⟩
    rw [hfiling t h, hfiling u (by rw [hbinary, ih.1, ← hbinary, h]), ih.1]
    split
    · rfl
    · rename_i ht
      exact ih.2 (by simpa using ht)

end IsFiledAs

/-! ### The terms of a chain of terms -/

theorem IsFiledAs.parenIf (needed : Bool) (t : Tree) : IsFiledAs t (Tree.parenIf needed t) :=
  ⟨isConstant_parenIf needed t, fun _ => filing?_parenIf true needed t⟩

theorem isSummand_of_signs (h : Signs u t) (ht : t.IsSummand) : u.stripParens.IsSummand := by
  cases h with
  | factor u =>
    rcases negate_cases u with ⟨value, hvalue, -⟩ | hnegate
    · exact hvalue ▸ isSummand_const value
    · exact absurd hnegate (ht.not_sign _)
  | product hop _ r => exact isSummand_binary hop _ r

/-- A minus in front of a term makes one term of it. -/
theorem exists_terms_of_signs (h : Signs u w) : ∃ term, w.terms = [term] ∧ IsFiledAs u term.1 := by
  have hfiled := IsFiledAs.of_signs h
  cases h with
  | factor u =>
    rcases negate_cases u with ⟨value, -, hnegate⟩ | hnegate
    · rw [hnegate] at hfiled ⊢
      exact ⟨_, rfl, hfiled⟩
    · refine ⟨(_, .minus), ?_, (IsFiledAs.stripParens u).trans (.parenIf (u.stripParens.precedence ≤ signPrecedence) _)⟩
      rw [terms, stripParens_negate, hnegate, Tree.termsFrom]
      exact (isSummand_parenIf_sign _).termsFrom .minus
  | product hop _ r => exact ⟨_, (isSummand_binary hop _ r).termsFrom .plus, hfiled⟩

theorem IsFiledAs.of_carries {term : Term} {sign : Sign} (h : Carries term u sign) : IsFiledAs term.1 u := by
  rcases h with ⟨rfl, -⟩ | ⟨hsigns, -⟩
  · exact .stripParens term.1
  · exact (IsFiledAs.stripParens term.1).trans (IsFiledAs.of_signs hsigns).symm

theorem isSummand_of_carries {term : Term} {sign : Sign} (h : Carries term u sign) (hterm : term.1.stripParens.IsSummand) :
    u.stripParens.IsSummand := by
  rcases h with ⟨rfl, -⟩ | ⟨hsigns, -⟩
  · rwa [stripParens_stripParens]
  · exact isSummand_of_signs hsigns hterm

theorem leftNeedsParen_op (sign : Sign) (t : Tree) : leftNeedsParen sign.op t = false := by
  have hprecedence : 1 ≤ t.precedence := by
    unfold precedence
    split
    · split <;> decide
    · decide
    · decide
    · rename_i op _ _
      cases op <;> simp [Op.precedence]
    · decide
  cases sign <;> simp [leftNeedsParen, Sign.op, Op.precedence] <;> omega

/-- A sum or difference has the terms of its left operand, and one more where the right operand is one term. -/
theorem exists_terms_binary (sign : Sign) (w : Tree) (hu : u.stripParens.IsSummand) :
    ∃ term, (binary sign.op w u).terms = w.terms ++ [term] ∧ IsFiledAs u term.1 := by
  refine ⟨(Tree.parenIf (rightNeedsParen sign.op u.stripParens) u.stripParens, sign), ?_, (IsFiledAs.stripParens u).trans (.parenIf _ _)⟩
  have hright : (Tree.parenIf (rightNeedsParen sign.op u.stripParens) u.stripParens).IsSummand := by
    unfold Tree.parenIf
    split
    · exact isSummand_paren _
    · exact hu
  rw [← hright.termsFrom, binary, leftNeedsParen_op]
  cases sign <;> rfl

/-- The terms of a chain are filed as the terms that it is a chain of. -/
theorem forall₂_isFiledAs {terms : List Term} (h : IsSumOf terms w) (hterms : ∀ term ∈ terms, term.1.stripParens.IsSummand) :
    List.Forall₂ (fun term other => IsFiledAs term.1 other.1) terms w.terms := by
  induction h with
  | first hcarries =>
    have hu := isSummand_of_carries hcarries (hterms _ (by simp))
    rw [Tree.terms, hu.termsFrom]
    exact .cons ((IsFiledAs.of_carries hcarries).trans (.stripParens _)) .nil
  | negative hcarries hsigns =>
    obtain ⟨term, hterm, hfiled⟩ := exists_terms_of_signs hsigns
    rw [hterm]
    exact .cons ((IsFiledAs.of_carries hcarries).trans hfiled) .nil
  | next _ hcarries ih =>
    obtain ⟨hbefore, hlast⟩ := List.forall_mem_append.mp hterms
    obtain ⟨term, hterm, hfiled⟩ := exists_terms_binary _ _ (isSummand_of_carries hcarries (hlast _ (by simp)))
    rw [hterm]
    exact List.rel_append (ih hbefore) (.cons ((IsFiledAs.of_carries hcarries).trans hfiled) .nil)

/-! ### Terms in order -/

/-- May the first tree stand before the second one? Constants come last; of two trees with unknowns the one comes first whose
unknown does, and of two with one unknown the one of the greater power. -/
def Precedes (t u : Tree) : Prop :=
  (t.isConstant = true → u.isConstant = true) ∧
    (t.isConstant = false → u.isConstant = false → ∃ v p w q,
      t.unknownAndPower = .ok (v, p) ∧ u.unknownAndPower = .ok (w, q) ∧ (v < w ∨ v = w ∧ q ≤ p))

theorem Precedes.of_isFiledAs {t' u' : Tree} (h : Precedes t u) (ht : IsFiledAs t t') (hu : IsFiledAs u u') : Precedes t' u' := by
  refine ⟨fun hconstant => hu.1.trans (h.1 (ht.1.symm.trans hconstant)), fun htconst huconst => ?_⟩
  have htconst' : t.isConstant = false := ht.1.symm.trans htconst
  have huconst' : u.isConstant = false := hu.1.symm.trans huconst
  obtain ⟨v, p, w, q, hv, hw, hle⟩ := h.2 htconst' huconst'
  rw [unknownAndPower_of_not_isConstant htconst', ← ht.2 htconst', ← unknownAndPower_of_not_isConstant htconst] at hv
  rw [unknownAndPower_of_not_isConstant huconst', ← hu.2 huconst', ← unknownAndPower_of_not_isConstant huconst] at hw
  exact ⟨v, p, w, q, hv, hw, hle⟩

theorem termKey_eq_ok {term : Term} {key : TermKey} (h : termKey term = .ok key) :
    key.isConstant = term.1.stripParens.isConstant ∧
      (term.1.stripParens.isConstant = false →
        term.1.stripParens.unknownAndPower = .ok (key.unknown, -key.descent)) := by
  simp only [termKey] at h
  split at h
  · rename_i hconstant
    obtain ⟨value, -, heq⟩ := Answer.bind_eq_ok_iff.mp h
    obtain rfl := Answer.pure_eq_ok_iff.mp heq
    exact ⟨hconstant.symm, fun hnot => by simp [hconstant] at hnot⟩
  · rename_i hconstant
    obtain ⟨⟨unknown, power⟩, hfound, heq⟩ := Answer.bind_eq_ok_iff.mp h
    obtain rfl := Answer.pure_eq_ok_iff.mp heq
    exact ⟨by simpa using hconstant, fun _ => by simpa using hfound⟩

theorem precedes_of_rank_le {a b : Term} {k l : TermKey} (hk : termKey a = .ok k) (hl : termKey b = .ok l)
    (hle : k.rank ≤ l.rank) : Precedes a.1.stripParens b.1.stripParens := by
  obtain ⟨hkconst, hkfiled⟩ := termKey_eq_ok hk
  obtain ⟨hlconst, hlfiled⟩ := termKey_eq_ok hl
  simp only [TermKey.rank, Prod.Lex.toLex_le_toLex, hkconst, hlconst] at hle
  constructor
  · intro ha
    rw [ha] at hle
    rcases hle with hlt | ⟨heq, -⟩
    · exact absurd hlt (not_lt_of_ge (Bool.le_true _))
    · exact heq.symm
  · intro ha hb
    refine ⟨_, _, _, _, hkfiled ha, hlfiled hb, ?_⟩
    rw [ha, hb] at hle
    rcases hle with hlt | ⟨-, hlt | ⟨heq, hle⟩⟩
    · exact absurd hlt (lt_irrefl _)
    · exact .inl hlt
    · refine .inr ⟨heq, neg_le_neg ?_⟩
      exact hle.elim le_of_lt fun h => h.1.le

theorem pairwise_of_forall₂ {α β : Type} {R : α → β → Prop} {P : α → α → Prop} {Q : β → β → Prop} {l : List α} {l' : List β}
    (h : List.Forall₂ R l l') (hl : l.Pairwise P) (himp : ∀ a b a' b', P a b → R a a' → R b b' → Q a' b') : l'.Pairwise Q := by
  rw [List.pairwise_iff_getElem] at hl ⊢
  intro i j hi hj hij
  have hlength := h.length_eq
  exact himp _ _ _ _ (hl i j (by omega) (by omega) hij) (h.get (by omega) hi) (h.get (by omega) hj)

/-! ### Writing the terms in any order -/

/-- The terms of the ordered tree stand in order, where no term is in parentheses. -/
theorem Composed.pairwise_precedes (h : t.Composed) (hplain : ∀ term ∈ t.terms, ∀ content, term.1 ≠ .paren content)
    (hu : t.withOrderedTerms = .ok u) : u.terms.Pairwise fun a b => Precedes a.1 b.1 := by
  rcases h.built.wellFormed.withOrderedTerms_eq_ok hu with ⟨rfl, term, hterm⟩ | ⟨sorted, cs, hsorted, hcs, hread⟩
  · rw [hterm]
    exact List.pairwise_singleton _ _
  · have hperm := sortTerms_perm hsorted
    have hsummand : ∀ term ∈ sorted, term.1.stripParens.IsSummand := by
      intro term hterm
      have hmem := hperm.subset hterm
      have hstrip : term.1.stripParens = term.1 := by
        cases hcase : term.1 with
        | paren content => exact absurd hcase (hplain term hmem content)
        | const | symbol | apply => rfl
      rw [hstrip]
      exact isSummand_of_mem_termsFrom .plus t.stripParens term hmem
    obtain ⟨w, hw, hsum⟩ := exists_isSumOf_of_perm (by rw [stripParens_stripParens, h.stripParens]; exact h.built) hperm hcs
    obtain rfl := Except.ok.inj (hw.symm.trans hread)
    refine pairwise_of_forall₂ (forall₂_isFiledAs hsum hsummand) (pairwise_of_sortTerms hsorted) ?_
    rintro a b a' b' ⟨k, l, hk, hl, hle⟩ ha hb
    exact (precedes_of_rank_le hk hl hle).of_isFiledAs ((IsFiledAs.stripParens _).symm.trans ha)
      ((IsFiledAs.stripParens _).symm.trans hb)

/-- The terms of a composed tree, written in any order, are read as a tree that has the value of the tree wherever it has
one, whatever the symbols, powers and functions mean. So has the tree with its terms in order; and where no term is in
parentheses, the constants come last there and the others in the order of their unknowns and of descending powers. -/
theorem ofText_of_perm_terms (ht : t.Composed) :
    (∀ terms : List Term, terms.Perm t.terms →
      ∃ cs u, writeTerms terms = .ok cs ∧ ofText (String.ofList cs) = .ok u ∧
        ∀ {K : Type} [Field K] [DecidableEq K] [CharZero K] (v : Valuation K) (x : K),
          v.value t = some x → v.value u = some x) ∧
      ∀ u, t.withOrderedTerms = .ok u →
        (∀ {K : Type} [Field K] [DecidableEq K] [CharZero K] (v : Valuation K) (x : K),
          v.value t = some x → v.value u = some x) ∧
        ((∀ term ∈ t.terms, ∀ content, term.1 ≠ .paren content) → u.terms.Pairwise fun a b => Precedes a.1 b.1) := by
  have hplain := ht.stripParens
  refine ⟨fun terms hperm => ?_, fun u hu => ⟨fun v x hx => ?_, fun hterms => ht.pairwise_precedes hterms hu⟩⟩
  · rw [Tree.terms, hplain] at hperm
    obtain ⟨text, htext⟩ := ht.exists_chars
    obtain ⟨cs, hcs⟩ := exists_writeTerms fun term hterm =>
      exists_chars_of_mem_termsFrom htext .plus term (hperm.subset hterm)
    obtain ⟨u, hu, hsum⟩ := exists_isSumOf_of_perm (by rw [hplain]; exact ht.built) hperm hcs
    exact ⟨cs, u, hcs, hu, fun v x hx => Reading.holds_of_isSumOf_perm (D := v.reading) hx hperm hsum⟩
  · exact Reading.holds_withOrderedTerms (D := v.reading) ht.built hx hu

open Text in
/-- No text of a call without arguments is read, though the call can be built, written and put in a sum. -/
theorem exists_terms_not_readable :
    let t := binary .add (call "sin" []) (.symbol "x")
    "sin" ∈ functionNames ∧ build (.call "sin") [] = .ok (call "sin" []) ∧
      build .add [call "sin" [], .symbol "x"] = .ok t ∧ t.WellFormed ∧ writeTerms t.terms = .ok "sin() + x".toList ∧
      ∀ u, ofText "sin() + x" ≠ .ok u := by
  have hread : ofText "sin() + x" = .error (.unreadable (.missingArgument "sin") "sin() + x") := by decide +kernel
  refine ⟨by decide, rfl, rfl, by decide +kernel, by decide +kernel, fun u hu => ?_⟩
  simp [hread] at hu

/-- The terms of `-2y + 3 - x^2` in reverse and in order keep its value `-16` where `x` is `3` and `y` is `5`. -/
theorem ofText_of_perm_terms_parabola :
    let t := binary .sub (binary .add (binary .mul (.const (-2)) (.symbol "y")) (.const 3)) (binary .pow (.symbol "x") (.const 2))
    let v : Valuation ℚ :=
      ⟨fun name => if name = "x" then 3 else 5, fun a b => if b = 2 then some (a * a) else none, fun _ _ => none⟩
    t.Composed ∧ v.value t = some (-16) ∧
      (∃ cs u, writeTerms t.terms.reverse = .ok cs ∧ ofText (String.ofList cs) = .ok u ∧ v.value u = some (-16)) ∧
      ∃ u, t.withOrderedTerms = .ok u ∧ v.value u = some (-16) ∧ u.terms.Pairwise fun a b => Precedes a.1 b.1 := by
  intro t v
  have hx : (symbol "x").Composed := .letter 'x' (by decide)
  have hy : (symbol "y").Composed := .letter 'y' (by decide)
  have ht : t.Composed :=
    .binary rfl (.binary rfl (.binary rfl (.integer (-2) (by decide)) hy) (.integer 3 (by decide)))
      (.binary rfl hx (.integer 2 (by decide)))
  have hvalue : v.value t = some (-16) := by decide +kernel
  have hordered : t.withOrderedTerms = .ok (binary .add (binary .sub (binary .pow (.symbol "x") (.const 2)).negate
      (binary .mul (.const 2) (.symbol "y"))) (.const 3)) := by decide +kernel
  obtain ⟨hperm, hplace⟩ := ofText_of_perm_terms ht
  obtain ⟨cs, u, hcs, hu, hkeeps⟩ := hperm t.terms.reverse t.terms.reverse_perm
  obtain ⟨hkeeps', hplaces⟩ := hplace _ hordered
  have hplain : ∀ term ∈ t.terms, ∀ content, term.1 ≠ .paren content := by
    have hterms : t.terms = [(binary .mul (.const (-2)) (.symbol "y"), .plus), (.const 3, .plus),
        (binary .pow (.symbol "x") (.const 2), .minus)] := by decide +kernel
    simp [hterms, binary]
  exact ⟨ht, hvalue, ⟨cs, u, hcs, hu, hkeeps v _ hvalue⟩, _, hordered, hkeeps' v _ hvalue, hplaces hplain⟩

end Tree

end AlgebraTutor
