import AlgebraTutor.Proofs.Polynomial.Layout
import AlgebraTutor.Proofs.Tree.Digits

/-!
# The integers of a layout

The integers that a layout is written with are the numerators and denominators of its coefficients and its exponents, but
for those that are one and not written at all. So neither the order of the terms nor their signs decide whether they can be written.
-/

namespace AlgebraTutor

namespace Tree

theorem hasShortIntegers_foldl_mul {t : Tree} {us : List Tree} :
    (us.foldl (binary .mul) t).HasShortIntegers ↔ t.HasShortIntegers ∧ ∀ u ∈ us, u.HasShortIntegers := by
  induction us generalizing t with
  | nil => simp
  | cons u us ih => rw [List.foldl_cons, ih, hasShortIntegers_binary, List.forall_mem_cons, and_assoc]

theorem hasShortIntegers_productOf {ts : List Tree} : (productOf ts).HasShortIntegers ↔ ∀ t ∈ ts, t.HasShortIntegers := by
  cases ts with
  | nil => simpa [productOf] using hasShortIntegers_const.mpr isShort_one
  | cons t ts => rw [productOf, hasShortIntegers_foldl_mul, List.forall_mem_cons]

theorem hasShortIntegers_integerMultiple {n : Int} {ts : List Tree} :
    (integerMultiple n ts).HasShortIntegers ↔ IsShort n ∧ ∀ t ∈ ts, t.HasShortIntegers := by
  have hminus : IsShort (-1) := isShort_neg.mpr isShort_one
  unfold integerMultiple
  split_ifs with hone hneg
  · rw [hasShortIntegers_productOf, hone, and_iff_right isShort_one]
  · rw [hasShortIntegers_productOf, hneg, and_iff_right hminus]
    cases ts with
    | nil => simpa [negateFirst] using hasShortIntegers_const.mpr hminus
    | cons t ts => simp [negateFirst, hasShortIntegers_negate]
  · rw [hasShortIntegers_productOf, List.forall_mem_cons, hasShortIntegers_const]

theorem hasShortIntegers_ofRat {c : Rat} : (ofRat c).HasShortIntegers ↔ IsShort c.num ∧ IsShort c.den := by
  unfold ofRat
  split_ifs with hden
  · rw [hasShortIntegers_const, hden, Nat.cast_one, and_iff_left isShort_one]
  · rw [hasShortIntegers_binary, hasShortIntegers_const, hasShortIntegers_natCast]

end Tree

open AlgebraTutor.Tree (IsShort)

theorem Monomial.hasShortIntegers_factorTree {f : String × Nat} : (factorTree f).HasShortIntegers ↔ IsShort f.2 := by
  unfold factorTree
  split_ifs with hexponent
  · simpa [hexponent] using Tree.isShort_one
  · rw [Tree.hasShortIntegers_binary, Tree.hasShortIntegers_natCast, and_iff_right (Tree.hasShortIntegers_symbol f.1)]

namespace Polynomial

/-- The integers that a term is written with can be written. -/
structure IsShortTerm (s : Monomial × Rat) : Prop where
  num : IsShort s.2.num
  den : IsShort s.2.den
  exponents : ∀ f ∈ s.1, IsShort f.2

theorem isShortTerm_neg {m : Monomial} {c : Rat} : IsShortTerm (m, -c) ↔ IsShortTerm (m, c) := by
  have hnum : IsShort (-c).num ↔ IsShort c.num := by rw [Rat.num_neg_eq_neg_num, Tree.isShort_neg]
  have hden : IsShort (-c).den ↔ IsShort c.den := by rw [Rat.den_neg_eq_den]
  exact ⟨fun h => ⟨hnum.mp h.num, hden.mp h.den, h.exponents⟩, fun h => ⟨hnum.mpr h.num, hden.mpr h.den, h.exponents⟩⟩

/-- A term with one or minus one for its coefficient can be written if its exponents can. -/
theorem isShortTerm_of_unit {m : Monomial} {c : Rat} (hc : c = 1 ∨ c = -1) (hm : ∀ f ∈ m, IsShort f.2) : IsShortTerm (m, c) := by
  have hone : IsShortTerm (m, 1) := ⟨Tree.isShort_one, Tree.isShort_one, hm⟩
  rcases hc with rfl | rfl
  · exact hone
  · exact isShortTerm_neg.mpr hone

theorem hasShortIntegers_termTree {m : Monomial} {c : Rat} :
    (termTree m c).HasShortIntegers ↔ IsShortTerm (m, c) := by
  have hterm : IsShortTerm (m, c) ↔ (IsShort c.num ∧ ∀ f ∈ m, IsShort f.2) ∧ IsShort c.den :=
    ⟨fun h => ⟨⟨h.num, h.exponents⟩, h.den⟩, fun h => ⟨h.1.1, h.2, h.1.2⟩⟩
  have hnumerator : (Tree.integerMultiple c.num m.toTrees).HasShortIntegers ↔ IsShort c.num ∧ ∀ f ∈ m, IsShort f.2 := by
    rw [Tree.hasShortIntegers_integerMultiple, Monomial.toTrees, List.forall_mem_map]
    simp only [Monomial.hasShortIntegers_factorTree]
  rw [hterm]
  unfold termTree
  split_ifs with hempty hden
  · simp [Tree.hasShortIntegers_ofRat, List.isEmpty_iff.mp hempty]
  · rw [hnumerator, hden, Nat.cast_one, and_iff_left Tree.isShort_one]
  · rw [Tree.hasShortIntegers_binary, hnumerator, Tree.hasShortIntegers_natCast]

theorem hasShortIntegers_appendTerms {t : Tree} {rest : List (Monomial × Rat)} :
    (appendTerms t rest).HasShortIntegers ↔ t.HasShortIntegers ∧ ∀ s ∈ rest, IsShortTerm s := by
  induction rest generalizing t with
  | nil => simp [appendTerms]
  | cons s rest ih =>
    have hsigned : (if s.2 < 0 then Tree.binary .sub t (termTree s.1 (-s.2)) else .binary .add t (termTree s.1 s.2)).HasShortIntegers ↔
        t.HasShortIntegers ∧ IsShortTerm s := by
      split_ifs
      · rw [Tree.hasShortIntegers_binary, hasShortIntegers_termTree, isShortTerm_neg]
      · rw [Tree.hasShortIntegers_binary, hasShortIntegers_termTree]
    rw [appendTerms, ih, hsigned, List.forall_mem_cons, and_assoc]

/-- A layout can be written exactly if each of its terms can. -/
theorem hasShortIntegers_layout {l : List (Monomial × Rat)} : (layout l).HasShortIntegers ↔ ∀ s ∈ l, IsShortTerm s := by
  cases l with
  | nil =>
    have hzero : IsShort 0 := (by decide : (Nat.toDigits 10 0).length ≤ Tree.digitLimit)
    simpa [layout] using Tree.hasShortIntegers_const.mpr hzero
  | cons s rest => rw [layout, hasShortIntegers_appendTerms, hasShortIntegers_termTree, List.forall_mem_cons]

theorem hasShortIntegers_toTree {p : Polynomial} : p.toTree.HasShortIntegers ↔ ∀ s ∈ p, IsShortTerm s := by
  rw [toTree_eq_layout, hasShortIntegers_layout]
  exact forall_congr' fun s => by rw [p.displayOrder_perm.mem_iff]

end Polynomial

end AlgebraTutor
