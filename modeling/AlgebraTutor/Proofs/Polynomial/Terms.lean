import AlgebraTutor.Proofs.Polynomial.Digits
import AlgebraTutor.Proofs.Polynomial.Shape
import AlgebraTutor.Proofs.Reader.Written
import AlgebraTutor.Tree.Terms

/-!
# The terms of a layout

The terms of the list are the terms of its layout, one for one. A term is laid out with the sign of its coefficient in
front, or without it behind the sign of the sum.
-/

namespace AlgebraTutor

namespace Tree

theorem Composed.exists_chars {t : Tree} (h : t.Composed) : ∃ cs, t.chars = .ok cs := by
  obtain ⟨text, htext, -⟩ := Reader.ofText_of_composed h
  exact (Answer.bind_eq_ok_iff.mp htext).imp fun _ hcs => hcs.1

/-- The tree is neither a sum nor begins with a sign. -/
def IsUnsigned (t : Tree) : Prop :=
  2 ≤ t.precedence ∧ t.precedence ≠ signPrecedence

theorem one_le_precedence (t : Tree) : 1 ≤ t.precedence := by
  unfold precedence
  split
  · split <;> decide
  · decide
  · decide
  · rename_i op _ _
    cases op <;> simp [Op.precedence]
  · decide

theorem IsUnsigned.termsFrom {t : Tree} (h : t.IsUnsigned) (sign : Sign) : termsFrom sign t = [(t, sign)] := by
  obtain ⟨hproduct, hsigned⟩ := h
  rw [Tree.termsFrom]
  · rintro l r rfl
    exact absurd hproduct (by simp [precedence, Op.precedence])
  · rintro l r rfl
    exact absurd hproduct (by simp [precedence, Op.precedence])
  · rintro u rfl
    exact hsigned rfl

theorem IsFactor.isUnsigned {t : Tree} (h : IsFactor t) : t.IsUnsigned := by
  cases h with
  | symbol => exact (by decide : 2 ≤ atomPrecedence ∧ atomPrecedence ≠ signPrecedence)
  | power => exact (by decide : 2 ≤ Op.pow.precedence ∧ Op.pow.precedence ≠ signPrecedence)

theorem two_le_precedence_const (value : Rat) : 2 ≤ (const value).precedence := by
  rw [precedence]
  split <;> decide

theorem isUnsigned_integer {n : Int} (hn : 0 ≤ n) : (const n).IsUnsigned := by
  rw [IsUnsigned, precedence, if_neg (by exact_mod_cast not_lt.mpr hn)]
  decide

theorem isUnsigned_product {op : Op} (hop : op = .mul ∨ op = .div) (t u : Tree) : (binary op t u).IsUnsigned := by
  rcases hop with rfl | rfl <;> exact (by decide : 2 ≤ Op.mul.precedence ∧ Op.mul.precedence ≠ signPrecedence)

theorem isUnsigned_foldl_mul {t : Tree} {us : List Tree} (h : us = [] → t.IsUnsigned) :
    (us.foldl (binary .mul) t).IsUnsigned := by
  induction us generalizing t with
  | nil => exact h rfl
  | cons u us ih => exact ih fun _ => isUnsigned_product (.inl rfl) t u

/-- A sum of a tree and a term without a sign needs no parentheses. -/
theorem binary_sum {op : Op} (hop : op = .add ∨ op = .sub) {t u : Tree} (ht : t.stripParens = t) (hu : u.stripParens = u)
    (hunsigned : u.IsUnsigned) : binary op t u = .apply op [t, u] := by
  have hpositive : t.precedence ≠ 0 := Nat.one_le_iff_ne_zero.mp (one_le_precedence t)
  have hsum : ¬u.precedence ≤ 1 := Nat.not_le.mpr hunsigned.1
  rw [binary, ht, hu]
  rcases hop with rfl | rfl <;>
    simp [leftNeedsParen, rightNeedsParen, Op.precedence, hpositive, hunsigned.2, hsum, parenIf]

theorem isConstant_ofRat (c : Rat) : (ofRat c).isConstant = true := by
  rw [isConstant, List.isEmpty_iff, List.eq_nil_iff_forall_not_mem]
  intro v
  unfold ofRat
  split_ifs <;> simp [mem_unknowns_binary, unknowns_const]

end Tree

namespace Polynomial

open AlgebraTutor.Tree (IsUnknown IsFactor LaidOut IsUnsigned)

variable {m : Monomial} {c : Rat}

/-- What it takes for a term to be written as a term of a sum. -/
structure IsWritable (s : Monomial × Rat) : Prop where
  nonzero : s.2 ≠ 0
  unknowns : ∀ f ∈ s.1, IsUnknown f.1
  short : IsShortTerm s

theorem IsWritable.neg (h : IsWritable (m, c)) : IsWritable (m, -c) :=
  ⟨neg_ne_zero.mpr h.nonzero, h.unknowns, isShortTerm_neg.mpr h.short⟩

theorem IsWritable.composed (h : IsWritable (m, c)) : (termTree m c).Composed :=
  (laidOut_termTree h.nonzero h.unknowns).1.built.composed_of_hasShortIntegers (hasShortIntegers_termTree.mpr h.short)

/-- The unknowns of a monomial are those of its term. -/
theorem mem_unknowns_termTree (hc : c ≠ 0) (hm : m.Canonical) (hunknowns : ∀ f ∈ m, IsUnknown f.1) {f : String × Nat} (hf : f ∈ m) :
    f.1 ∈ (termTree m c).unknowns := by
  refine (denotes_termTree (fun g hg => (hunknowns g hg).2) c).mem_unknowns_of_mem_vars ?_
  rw [MvPolynomial.vars_monomial hc, Finsupp.mem_support_iff]
  exact Monomial.exponents_ne_zero_of_mem hm hf

theorem IsWritable.isConstant (h : IsWritable (m, c)) (hm : m.Canonical) (hne : m ≠ []) : (termTree m c).isConstant = false := by
  obtain ⟨f, hf⟩ := List.exists_mem_of_ne_nil m hne
  rw [Tree.isConstant, List.isEmpty_eq_false_iff]
  exact List.ne_nil_of_mem (mem_unknowns_termTree h.nonzero hm h.unknowns hf)

theorem isLettered_of_isWritable {l : List (Monomial × Rat)} (h : ∀ s ∈ l, IsWritable s) : IsLettered l :=
  fun s hs => ⟨(h s hs).nonzero, (h s hs).unknowns⟩

theorem composed_layout {l : List (Monomial × Rat)} (h : ∀ s ∈ l, IsWritable s) : (layout l).Composed :=
  (laidOut_layout (isLettered_of_isWritable h)).built.composed_of_hasShortIntegers
    (hasShortIntegers_layout.mpr fun s hs => (h s hs).short)

theorem composed_toTree {p : Polynomial} (h : ∀ s ∈ p, IsWritable s) : p.toTree.Composed :=
  toTree_eq_layout p ▸ composed_layout fun s hs => h s (p.displayOrder_perm.subset hs)

/-- Without a sign in front, a term is laid out without one. -/
theorem isUnsigned_termTree (hc : 0 < c) (hm : ∀ f ∈ m, IsUnknown f.1) : (termTree m c).IsUnsigned := by
  have hnum : 0 < c.num := Rat.num_pos.mpr hc
  unfold termTree
  split_ifs with hempty hden
  · unfold Tree.ofRat
    split_ifs
    · exact Tree.isUnsigned_integer hnum.le
    · exact Tree.isUnsigned_product (.inr rfl) _ _
  · unfold Tree.integerMultiple
    split_ifs with hone hneg
    · obtain ⟨f, m, rfl⟩ := List.exists_cons_of_ne_nil (by simpa using hempty : m ≠ [])
      exact Tree.isUnsigned_foldl_mul fun _ => (isFactor_factorTree (hm f List.mem_cons_self)).isUnsigned
    · omega
    · exact Tree.isUnsigned_foldl_mul fun _ => Tree.isUnsigned_integer hnum.le
  · exact Tree.isUnsigned_product (.inr rfl) _ _

/-- The term of a sum stands for the term of the list: as it is, or without its minus. -/
def Presents (term : Term) (s : Monomial × Rat) : Prop :=
  term = (termTree s.1 s.2, .plus) ∨ s.2 < 0 ∧ term = (termTree s.1 (-s.2), .minus)

/-- What begins with a sign is a number, or the negative of a power. -/
theorem termTree_cases (hm : ∀ f ∈ m, IsUnknown f.1) :
    (termTree m c).IsUnsigned ∨ (∃ n : Int, termTree m c = .const n) ∨ ∃ f, m = [f] ∧ c = -1 := by
  by_cases hden : c.den = 1
  · cases m with
    | nil => exact .inr (.inl ⟨c.num, by simp [termTree, Tree.ofRat, hden]⟩)
    | cons f m =>
      have hfactor := isFactor_factorTree (hm f List.mem_cons_self)
      simp only [termTree, List.isEmpty_cons, Bool.false_eq_true, if_false, hden, if_true, Tree.integerMultiple]
      split_ifs with hone hneg
      · exact .inl (Tree.isUnsigned_foldl_mul fun _ => hfactor.isUnsigned)
      · cases m with
        | nil => exact .inr (.inr ⟨f, rfl, by rw [← Rat.num_div_den c, hden, hneg]; simp⟩)
        | cons g m => exact .inl (Tree.isUnsigned_foldl_mul (by simp))
      · exact .inl (Tree.isUnsigned_foldl_mul (by simp [Monomial.toTrees]))
  · refine .inl ?_
    unfold termTree
    split_ifs
    · rw [Tree.ofRat, if_neg hden]
      exact Tree.isUnsigned_product (.inr rfl) _ _
    · exact Tree.isUnsigned_product (.inr rfl) _ _

/-- The layout of a term is a single term. -/
theorem exists_presents_termTree (hc : c ≠ 0) (hm : ∀ f ∈ m, IsUnknown f.1) :
    ∃ term, Tree.termsFrom .plus (termTree m c) = [term] ∧ Presents term (m, c) := by
  rcases termTree_cases (c := c) hm with hunsigned | ⟨n, hconst⟩ | ⟨f, rfl, rfl⟩
  · exact ⟨_, hunsigned.termsFrom .plus, .inl rfl⟩
  · exact ⟨(.const n, .plus), by rw [hconst, Tree.termsFrom] <;> nofun, .inl (by rw [hconst])⟩
  · have hfactor := isFactor_factorTree (hm f (List.mem_singleton_self f))
    have hminus : termTree [f] (-1) = (Monomial.factorTree f).negate := rfl
    refine ⟨(Monomial.factorTree f, .minus), ?_, .inr ⟨neg_one_lt_zero, by rw [neg_neg]; rfl⟩⟩
    rw [hminus, hfactor.negate, Tree.termsFrom, hfactor.isUnsigned.termsFrom, Sign.flip]

theorem forall₂_presents_appendTerms {t : Tree} (ht : LaidOut t) {l rest : List (Monomial × Rat)} (hrest : IsLettered rest)
    (h : List.Forall₂ Presents (Tree.termsFrom .plus t) l) :
    List.Forall₂ Presents (Tree.termsFrom .plus (appendTerms t rest)) (l ++ rest) := by
  induction rest generalizing t l with
  | nil => simpa [appendTerms] using h
  | cons s rest ih =>
    obtain ⟨m, c⟩ := s
    obtain ⟨hc, hm⟩ := hrest (m, c) List.mem_cons_self
    have hlater : IsLettered rest := fun r hr => hrest r (List.mem_cons_of_mem (m, c) hr)
    rw [appendTerms, List.append_cons]
    split_ifs with hneg
    · have hterm := laidOut_termTree (neg_ne_zero.mpr hc) hm
      refine ih (.minus ht hterm.1) hlater ?_
      have hunsigned := isUnsigned_termTree (neg_pos.mpr hneg) hm
      rw [Tree.binary_sum (.inr rfl) ht.stripParens hterm.1.stripParens hunsigned, Tree.termsFrom, hunsigned.termsFrom]
      exact List.rel_append h (.cons (.inr ⟨hneg, rfl⟩) .nil)
    · have hterm := laidOut_termTree hc hm
      refine ih (.plus ht hterm.1) hlater ?_
      have hunsigned := isUnsigned_termTree (lt_of_le_of_ne (not_lt.mp hneg) hc.symm) hm
      rw [Tree.binary_sum (.inl rfl) ht.stripParens hterm.1.stripParens hunsigned, Tree.termsFrom, hunsigned.termsFrom]
      exact List.rel_append h (.cons (.inl rfl) .nil)

/-- The terms of a layout are those of the list. -/
theorem forall₂_presents_layout {l : List (Monomial × Rat)} (hl : IsLettered l) (hne : l ≠ []) :
    List.Forall₂ Presents (layout l).terms l := by
  obtain ⟨s, rest, rfl⟩ := List.exists_cons_of_ne_nil hne
  obtain ⟨hc, hm⟩ := hl s List.mem_cons_self
  obtain ⟨term, hterm, hpresents⟩ := exists_presents_termTree hc hm
  rw [Tree.terms, (laidOut_layout hl).stripParens, layout]
  refine @forall₂_presents_appendTerms _ (laidOut_termTree hc hm).1 [s] rest (fun r hr => hl r (List.mem_cons_of_mem s hr)) ?_
  rw [hterm]
  exact .cons hpresents .nil

end Polynomial

end AlgebraTutor
