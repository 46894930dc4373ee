import AlgebraTutor.Proofs.Canonical.TermOrder
import AlgebraTutor.Proofs.Polynomial.Digits
import AlgebraTutor.Proofs.Polynomial.Terms
import AlgebraTutor.Proofs.Text.Digit
import AlgebraTutor.Proofs.Text.Numeral

/-!
# Terms that can be sorted

A term is sorted by a key, and working out the key can fail: a text or a number may have too many digits, and an exponent
may have no nearest double. No term of a layout fails so whose integers can be written and whose exponents have a nearest
double, so the layout can be put in order.
-/

namespace AlgebraTutor

namespace Tree

/-! ### Filing -/

/-- The tree can be written, and filed as a term and as a factor. -/
structure CanFile (t : Tree) : Prop where
  composed : t.Composed
  filing : ∀ isFactor, ∃ found, filing? isFactor t = .ok found

theorem Composed.exists_filedByText {t : Tree} (h : t.Composed) : ∃ found, filedByText t = .ok found := by
  obtain ⟨text, htext, -⟩ := Reader.ofText_of_composed h
  exact ⟨(text, 1), by rw [filedByText, htext]; rfl⟩

theorem filing?_parenIf (isFactor needed : Bool) (t : Tree) : filing? isFactor (parenIf needed t) = filing? isFactor t := by
  cases needed <;> rfl

theorem canFile_integer {n : Int} (hn : IsShort n) : (const n).CanFile := by
  have hcomposed : (const n).Composed := .integer n hn
  obtain ⟨found, hfound⟩ := hcomposed.exists_filedByText
  refine ⟨hcomposed, fun isFactor => ?_⟩
  have hfiling : filing? isFactor (const n) =
      if isFactor && (const n).isConstant then .ok none else some <$> filedByText (const n) := rfl
  rw [hfiling, hfound]
  split <;> exact ⟨_, rfl⟩

theorem canFile_factorTree {f : String × Nat} (hname : IsUnknown f.1) (hshort : IsShort f.2)
    (hfloat : (Decimal.nearestValue? f.2).isSome = true) : (Monomial.factorTree f).CanFile := by
  obtain ⟨power, hpower⟩ := Option.isSome_iff_exists.mp hfloat
  have hcomposed := (Polynomial.isFactor_factorTree hname).built.composed_of_hasShortIntegers
    (Monomial.hasShortIntegers_factorTree.mpr hshort)
  refine ⟨hcomposed, fun isFactor => ?_⟩
  unfold Monomial.factorTree
  split_ifs
  · rw [filing?]
    split <;> exact ⟨_, rfl⟩
  · rw [binary, filing?]
    split
    · exact ⟨_, rfl⟩
    · simp only [stripParens, stripParens_parenIf (t := symbol f.1) rfl, stripParens_parenIf (t := const f.2) rfl, exponentValue,
        hpower]
      exact ⟨_, rfl⟩

theorem CanFile.sign {t : Tree} (h : t.CanFile) (hunsigned : t.negate = .apply .sub [t]) : t.negate.CanFile := by
  refine ⟨h.composed.negate, fun isFactor => ?_⟩
  rw [hunsigned, filing?]
  split
  · exact ⟨_, rfl⟩
  · exact h.filing false

theorem CanFile.mul {t u : Tree} (ht : t.CanFile) (hu : u.CanFile) : (binary .mul t u).CanFile := by
  have hcomposed : (binary .mul t u).Composed := .binary rfl ht.composed hu.composed
  obtain ⟨filed, hfiled⟩ := hcomposed.exists_filedByText
  refine ⟨hcomposed, fun isFactor => ?_⟩
  obtain ⟨left, hleft⟩ := ht.filing true
  obtain ⟨right, hright⟩ := hu.filing true
  rw [binary, ht.composed.stripParens, hu.composed.stripParens] at hfiled ⊢
  rw [filing?, filing?_parenIf, filing?_parenIf, hleft, hright, hfiled, Answer.ok_bind]
  split
  · exact ⟨_, rfl⟩
  · rw [Answer.ok_bind]
    split
    · exact ⟨_, rfl⟩
    · split <;> exact ⟨_, rfl⟩

theorem CanFile.div {t u : Tree} (ht : t.CanFile) (hu : u.CanFile) : (binary .div t u).CanFile := by
  have hcomposed : (binary .div t u).Composed := .binary rfl ht.composed hu.composed
  obtain ⟨filed, hfiled⟩ := hcomposed.exists_filedByText
  refine ⟨hcomposed, fun isFactor => ?_⟩
  rw [binary, ht.composed.stripParens, hu.composed.stripParens] at hfiled ⊢
  rw [filing?, filing?_parenIf, filing?_parenIf, hfiled]
  split_ifs
  · exact ⟨_, rfl⟩
  · exact ⟨_, rfl⟩
  · exact hu.filing false
  · exact ht.filing false

theorem canFile_foldl_mul {t : Tree} {us : List Tree} (ht : t.CanFile) (hus : ∀ u ∈ us, u.CanFile) :
    (us.foldl (binary .mul) t).CanFile := by
  induction us generalizing t with
  | nil => exact ht
  | cons u us ih => exact ih (ht.mul (hus u List.mem_cons_self)) fun v hv => hus v (List.mem_cons_of_mem u hv)

end Tree

open AlgebraTutor.Tree (IsUnknown IsShort CanFile)

namespace Polynomial

/-- The exponents of the term have a nearest double. -/
def HasFloatExponents (s : Monomial × Rat) : Prop :=
  ∀ f ∈ s.1, (Decimal.nearestValue? f.2).isSome = true

variable {m : Monomial} {c : Rat}

theorem canFile_termTree (hm : ∀ f ∈ m, IsUnknown f.1) (hne : m ≠ []) (hshort : IsShortTerm (m, c))
    (hfloat : HasFloatExponents (m, c)) : (termTree m c).CanFile := by
  have hfactors : ∀ t ∈ m.toTrees, t.CanFile :=
    List.forall_mem_map.mpr fun f hf => Tree.canFile_factorTree (hm f hf) (hshort.exponents f hf) (hfloat f hf)
  have hnumerator : (Tree.integerMultiple c.num m.toTrees).CanFile := by
    obtain ⟨f, m, rfl⟩ := List.exists_cons_of_ne_nil hne
    obtain ⟨hfirst, hlater⟩ := List.forall_mem_cons.mp hfactors
    unfold Tree.integerMultiple
    split_ifs
    · exact Tree.canFile_foldl_mul hfirst hlater
    · exact Tree.canFile_foldl_mul (hfirst.sign (isFactor_factorTree (hm f List.mem_cons_self)).negate) hlater
    · exact Tree.canFile_foldl_mul (Tree.canFile_integer hshort.num) hfactors
  rw [termTree, if_neg (by simpa using hne)]
  split_ifs
  · exact hnumerator
  · exact hnumerator.div (by simpa using Tree.canFile_integer hshort.den)

end Polynomial

/-! ### Keys -/

namespace Tree

theorem lt_pow_of_length_digits_le {n limit : Nat} (h : (Nat.toDigits 10 n).length ≤ limit) : n < Nat.pow 10 limit := by
  have hdigits : ∀ c ∈ Nat.toDigits 10 n, Text.digitValue c < 10 :=
    fun c hc => Text.digitValue_lt_ten (Text.isDigit_of_mem_digits hc)
  have hlt := (Text.numeralValue_lt hdigits).trans_le (Nat.pow_le_pow_right (by decide) h)
  rwa [Text.numeralValue_digits] at hlt

theorem exists_constantValue_ofRat {c : Rat} (hnum : IsShort c.num) (hden : IsShort c.den) :
    ∃ value, (ofRat c).constantValue = .ok value := by
  have hconst : (ofRat c).Denotes (Polynomial.toMv (.const c)) := Polynomial.toMv_const c ▸ denotes_ofRat c
  have hconstant : (ofRat c).polynomial?.bind Polynomial.constant? = some c := by
    rw [polynomial?_eq_some_iff.mpr ⟨Polynomial.canonical_const c, hconst⟩]
    exact (Polynomial.constant?_eq_some_iff (Polynomial.canonical_const c)).mpr (Polynomial.toMv_const c)
  have hfits : ¬(Nat.pow 10 digitLimit ≤ c.num.natAbs ∨ Nat.pow 10 digitLimit ≤ c.den) :=
    not_or.mpr ⟨Nat.not_le.mpr (lt_pow_of_length_digits_le hnum), Nat.not_le.mpr (lt_pow_of_length_digits_le hden)⟩
  rw [constantValue, hconstant]
  simp only [if_neg hfits]
  exact ⟨_, rfl⟩

end Tree

namespace Polynomial

variable {m : Monomial} {c : Rat}

/-- What it takes for a term to be written and sorted. -/
structure IsSortable (s : Monomial × Rat) : Prop extends IsWritable s where
  monomial : s.1.Canonical
  float : HasFloatExponents s

theorem IsSortable.neg (h : IsSortable (m, c)) : IsSortable (m, -c) :=
  ⟨h.toIsWritable.neg, h.monomial, h.float⟩

theorem IsSortable.exists_termKey (h : IsSortable (m, c)) (sign : Sign) :
    ∃ key, Tree.termKey (termTree m c, sign) = .ok key := by
  rw [Tree.termKey, h.composed.stripParens]
  by_cases hempty : m = []
  · obtain ⟨value, hvalue⟩ := Tree.exists_constantValue_ofRat h.short.num h.short.den
    subst hempty
    rw [show termTree [] c = .ofRat c from rfl, if_pos (Tree.isConstant_ofRat c), hvalue]
    exact ⟨_, rfl⟩
  · obtain ⟨found, hfound⟩ := (canFile_termTree h.unknowns hempty h.short h.float).filing false
    obtain ⟨filed, hfiled⟩ := h.composed.exists_filedByText
    simp only [h.toIsWritable.isConstant h.monomial hempty, Bool.false_eq_true, if_false, Tree.unknownAndPower, hfound, hfiled, Answer.ok_bind]
    cases found <;> exact ⟨_, rfl⟩

/-- The terms of a sum that stand for such terms have their keys and their texts. -/
theorem exists_termKey_of_presents {terms : List Term} {l : List (Monomial × Rat)} (h : List.Forall₂ Presents terms l)
    (hsort : ∀ s ∈ l, IsSortable s) : ∀ term ∈ terms, (∃ key, Tree.termKey term = .ok key) ∧ ∃ cs, term.1.chars = .ok cs := by
  induction h with
  | nil => simp
  | cons hterm _ ih =>
    obtain ⟨hs, hlater⟩ := List.forall_mem_cons.mp hsort
    refine List.forall_mem_cons.mpr ⟨?_, ih hlater⟩
    rcases hterm with rfl | ⟨-, rfl⟩
    · exact ⟨hs.exists_termKey _, hs.composed.exists_chars⟩
    · exact ⟨hs.neg.exists_termKey _, hs.neg.composed.exists_chars⟩

end Polynomial

/-! ### Sorting and writing -/

namespace Tree

theorem exists_keyTerms {terms : List Term} (h : ∀ term ∈ terms, ∃ key, termKey term = .ok key) :
    ∃ keyed, keyTerms terms = .ok keyed := by
  induction terms with
  | nil => exact ⟨[], rfl⟩
  | cons term terms ih =>
    obtain ⟨⟨key, hkey⟩, hlater⟩ := List.forall_mem_cons.mp h
    obtain ⟨keyed, hkeyed⟩ := ih hlater
    exact ⟨(key, term) :: keyed, by rw [keyTerms, hkey, Answer.ok_bind, hkeyed]; rfl⟩

theorem exists_sortTerms {terms : List Term} (h : ∀ term ∈ terms, ∃ key, termKey term = .ok key) :
    ∃ sorted, sortTerms terms = .ok sorted := by
  obtain ⟨keyed, hkeyed⟩ := exists_keyTerms h
  exact ⟨_, by rw [sortTerms, hkeyed]; rfl⟩

theorem exists_signedChars {term : Term} (h : ∃ cs, term.1.chars = .ok cs) : ∃ found, signedChars term = .ok found := by
  obtain ⟨cs, hcs⟩ := h
  rw [signedChars, hcs, Answer.ok_bind]
  split <;> exact ⟨_, rfl⟩

theorem exists_laterTerms {terms : List Term} (h : ∀ term ∈ terms, ∃ cs, term.1.chars = .ok cs) :
    ∃ later, laterTerms terms = .ok later := by
  induction terms with
  | nil => exact ⟨[], rfl⟩
  | cons term terms ih =>
    obtain ⟨hterm, hlater⟩ := List.forall_mem_cons.mp h
    obtain ⟨found, hfound⟩ := exists_signedChars hterm
    obtain ⟨later, hwritten⟩ := ih hlater
    exact ⟨_, by rw [laterTerms, hfound, Answer.ok_bind, hwritten]; rfl⟩

theorem exists_writeTerms {terms : List Term} (h : ∀ term ∈ terms, ∃ cs, term.1.chars = .ok cs) :
    ∃ cs, writeTerms terms = .ok cs := by
  cases terms with
  | nil => exact ⟨[], rfl⟩
  | cons term terms =>
    obtain ⟨hterm, hlater⟩ := List.forall_mem_cons.mp h
    obtain ⟨found, hfound⟩ := exists_signedChars hterm
    obtain ⟨later, hwritten⟩ := exists_laterTerms hlater
    exact ⟨_, by rw [writeTerms, hfound, Answer.ok_bind, hwritten]; rfl⟩

end Tree

end AlgebraTutor
