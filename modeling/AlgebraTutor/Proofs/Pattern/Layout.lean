import AlgebraTutor.Proofs.Pattern.Quiet
import AlgebraTutor.Proofs.Polynomial.Writing

/-!
# Nothing is found in a layout

The nodes of a layout are powers, products with a number other than zero and one in front, fractions in lowest terms, and sums of
terms of which one at most is a number. No detector finds anything at any of them.
-/

namespace AlgebraTutor

namespace Tree

variable {t u : Tree}

theorem isNumber_eq_true_iff : t.isNumber = true ↔ ∃ value, t.stripParens = .const value := by
  unfold isNumber
  split
  · rename_i value hvalue
    exact ⟨fun _ => ⟨value, hvalue⟩, fun _ => rfl⟩
  · rename_i hother
    exact ⟨nofun, fun ⟨value, hvalue⟩ => absurd hvalue (hother value)⟩

theorem isNumber_eq_false_iff : t.isNumber = false ↔ ∀ value, t.stripParens ≠ .const value := by
  rw [Bool.eq_false_iff, Ne, isNumber_eq_true_iff, not_exists]

theorem IsFactor.isNumber (h : IsFactor t) : t.isNumber = false := by
  cases h <;> rfl

theorem IsUnsigned.isSum (h : t.IsUnsigned) (hplain : t.stripParens = t) : t.isSum = false := by
  unfold Tree.isSum
  rw [hplain]
  split
  · exact absurd h.1 (by simp [precedence, Op.precedence])
  · exact absurd h.1 (by simp [precedence, Op.precedence])
  · rfl

/-! ### Terms -/

theorem IsFactor.allQuiet (h : IsFactor t) : t.AllQuiet := by
  cases h with
  | symbol => exact allQuiet_symbol _
  | power hw n =>
    rw [binary_power, allQuiet_apply_iff, isQuiet_iff rfl]
    exact ⟨⟨rfl, rfl⟩, by simp [allQuiet_symbol, allQuiet_const]⟩

theorem IsFactor.allQuiet_negate (h : IsFactor t) : t.negate.AllQuiet := by
  have hnumber : (apply .sub [t]).isNumberOperation = false := by simp [isNumberOperation, h.isNumber]
  rw [h.negate, allQuiet_apply_iff, isQuiet_iff hnumber]
  exact ⟨⟨rfl, rfl⟩, by simpa using h.allQuiet⟩

theorem allQuiet_times (hplain : t.stripParens = t) (hprecedence : 2 ≤ t.precedence)
    (hvalue : ∀ value, t = .const value → IsCoefficient value) (hquiet : t.AllQuiet) (hu : IsFactor u) :
    (binary .mul t u).AllQuiet := by
  have hnumber : (apply .mul [t, u]).isNumberOperation = false := by simp [isNumberOperation, hu.isNumber]
  have hsum : t.isSum = false := by
    unfold isSum
    rw [hplain]
    split
    · exact absurd hprecedence (by simp [precedence, Op.precedence])
    · exact absurd hprecedence (by simp [precedence, Op.precedence])
    · rfl
  have hidle : (apply .mul [t, u]).hasIdleNumber = false := by
    rw [Bool.eq_false_iff, Ne, hasIdleNumber, hasNumber_eq_true_iff]
    rintro ⟨a, ha, value, hconst, hidle⟩
    rcases List.mem_pair.mp ha with rfl | rfl
    · obtain ⟨hzero, hone, hminus⟩ := hvalue value (hplain.symm.trans hconst)
      simp [hzero, hone, hminus] at hidle
    · exact isNumber_eq_false_iff.mp hu.isNumber value hconst
  rw [binary_times hplain hprecedence hu, allQuiet_apply_iff, isQuiet_iff hnumber]
  exact ⟨⟨by simp [isProductOverSum, hsum, hu.isUnsigned.isSum hu.stripParens], hidle⟩, by simp [hquiet, hu.allQuiet]⟩

theorem allQuiet_over (hplain : t.stripParens = t) (hprecedence : 2 ≤ t.precedence) (hnumber : t.isNumber = false)
    (hquiet : t.AllQuiet) (n : Nat) : (binary .div t (.const n)).AllQuiet := by
  have hoperation : (apply .div [t, .const n]).isNumberOperation = false := by simp [isNumberOperation, hnumber]
  rw [binary_over hplain hprecedence, allQuiet_apply_iff, isQuiet_iff hoperation]
  exact ⟨⟨rfl, rfl⟩, by simp [hquiet, allQuiet_const]⟩

/-- A sum is quiet if one operand is no number and neither is zero. -/
theorem allQuiet_sum {op : Op} (hop : op = .add ∨ op = .sub) (hnumber : t.isNumber = false ∨ u.isNumber = false)
    (ht : t.stripParens ≠ .const 0) (hu : u.stripParens ≠ .const 0) (htquiet : t.AllQuiet) (huquiet : u.AllQuiet) :
    (apply op [t, u]).AllQuiet := by
  have hoperation : (apply op [t, u]).isNumberOperation = false := by
    rcases hnumber with hnumber | hnumber <;> simp [isNumberOperation, hnumber]
  have hidle : (apply op [t, u]).hasIdleNumber = false := by
    have hzero : hasNumber (· == 0) [t, u] = false := by
      rw [Bool.eq_false_iff, Ne, hasNumber_eq_true_iff]
      rintro ⟨a, ha, value, hconst, hvalue⟩
      obtain rfl : value = 0 := by simpa using hvalue
      rcases List.mem_pair.mp ha with rfl | rfl
      · exact ht hconst
      · exact hu hconst
    rcases hop with rfl | rfl <;> exact hzero
  rw [allQuiet_apply_iff, isQuiet_iff hoperation]
  exact ⟨⟨by rcases hop with rfl | rfl <;> rfl, hidle⟩, by simp [htquiet, huquiet]⟩

theorem allQuiet_foldl_mul {us : List Tree} (ht : LaidOut t) (hprecedence : 2 ≤ t.precedence)
    (hvalue : us ≠ [] → ∀ value, t = .const value → IsCoefficient value) (hquiet : t.AllQuiet) (hus : ∀ u ∈ us, IsFactor u) :
    (us.foldl (binary .mul) t).AllQuiet := by
  induction us generalizing t with
  | nil => exact hquiet
  | cons u us ih =>
    obtain ⟨hu, hus⟩ := List.forall_mem_cons.mp hus
    have hvalue := hvalue (by simp)
    exact ih (.times ht hprecedence hvalue hu) (Nat.le_refl 2) (fun _ _ h => by simp [binary] at h)
      (allQuiet_times ht.stripParens hprecedence hvalue hquiet hu) hus

theorem allQuiet_integerMultiple {n : Int} (hn : n ≠ 0) {ts : List Tree} (hne : ts ≠ []) (hts : ∀ t ∈ ts, IsFactor t) :
    (integerMultiple n ts).AllQuiet := by
  obtain ⟨t, us, rfl⟩ := List.exists_cons_of_ne_nil hne
  obtain ⟨ht, hus⟩ := List.forall_mem_cons.mp hts
  have hprecedence : 2 ≤ t.negate.precedence := ht.isNegated.precedence.2
  unfold integerMultiple
  split_ifs with hone hminus
  · exact allQuiet_foldl_mul (.factor ht) ht.isUnsigned.1 (fun _ value heq => absurd heq (ht.not_const value)) ht.allQuiet hus
  · exact allQuiet_foldl_mul (.negative ht) hprecedence (fun _ value heq => by simp [ht.negate] at heq) ht.allQuiet_negate hus
  · refine allQuiet_foldl_mul (.const n) (two_le_precedence_const _) (fun _ value heq => ?_) (allQuiet_const n) hts
    obtain rfl := const.inj heq
    exact ⟨by exact_mod_cast hn, by exact_mod_cast hone, by exact_mod_cast hminus⟩

theorem isNumber_foldl_mul {us : List Tree} (h : us = [] → t.isNumber = false) : (us.foldl (binary .mul) t).isNumber = false := by
  induction us generalizing t with
  | nil => exact h rfl
  | cons u us ih => exact ih fun _ => rfl

theorem isNumber_integerMultiple {n : Int} {ts : List Tree} (hne : ts ≠ []) (hts : ∀ t ∈ ts, IsFactor t) :
    (integerMultiple n ts).isNumber = false := by
  obtain ⟨t, us, rfl⟩ := List.exists_cons_of_ne_nil hne
  have ht := hts t List.mem_cons_self
  unfold integerMultiple
  split_ifs
  · exact isNumber_foldl_mul fun _ => ht.isNumber
  · exact isNumber_foldl_mul fun _ => by rw [ht.negate]; rfl
  · exact isNumber_foldl_mul nofun

end Tree

namespace Polynomial

open AlgebraTutor.Tree (LaidOut IsFactor IsUnknown)

variable {m : Monomial} {c : Rat}

/-- The fraction that a number is laid out as is its own normal form. -/
theorem allQuiet_ofRat (h : IsWritable ([], c)) : (Tree.ofRat c).AllQuiet := by
  obtain ⟨text, htext, -⟩ := Reader.ofText_of_composed h.composed
  have hdenotes : (Tree.ofRat c).Denotes (toMv (.const c)) := toMv_const c ▸ Tree.denotes_ofRat c
  have hlayout : (const c).toTree = .ofRat c := by rw [const, if_neg h.nonzero]; rfl
  have hsimplify := hlayout ▸ Tree.simplify_of_denotes (canonical_const c) hdenotes
  have hterm : termTree [] c = .ofRat c := rfl
  rw [hterm] at htext
  by_cases hden : c.den = 1
  · rw [Tree.ofRat, if_pos hden]
    exact Tree.allQuiet_const _
  · have hover : Tree.ofRat c = .apply .div [.const c.num, .const c.den] := by
      rw [Tree.ofRat, if_neg hden]
      exact Tree.binary_over rfl (Tree.two_le_precedence_const _) c.den
    have hquiet := Tree.isQuiet_of_simplify hsimplify htext (by rw [hover]; rfl) (by rw [hover]; rfl) (by rw [hover]; rfl)
    rw [hover] at hquiet ⊢
    exact Tree.allQuiet_apply_iff.mpr ⟨hquiet, by simp [Tree.allQuiet_const]⟩

theorem allQuiet_termTree (h : IsWritable (m, c)) : (termTree m c).AllQuiet := by
  unfold termTree
  split_ifs with hempty hden
  · obtain rfl := List.isEmpty_iff.mp hempty
    exact allQuiet_ofRat h
  all_goals
    have hne : m.toTrees ≠ [] := by simpa [Monomial.toTrees] using hempty
    have hfactors : ∀ t ∈ m.toTrees, IsFactor t := List.forall_mem_map.mpr fun f hf => isFactor_factorTree (h.unknowns f hf)
    have hnum := Rat.num_ne_zero.mpr h.nonzero
    have hnumerator := Tree.allQuiet_integerMultiple hnum hne hfactors
  · exact hnumerator
  · obtain ⟨hlaid, hprecedence⟩ := laidOut_integerMultiple hnum hne hfactors
    exact Tree.allQuiet_over hlaid.stripParens hprecedence (Tree.isNumber_integerMultiple hne hfactors) hnumerator c.den

theorem termTree_ne_zero (h : IsWritable (m, c)) : termTree m c ≠ .const 0 := by
  intro heq
  have hdenotes := denotes_termTree (fun f hf => (h.unknowns f hf).2) c
  rw [heq] at hdenotes
  have hzero := hdenotes.unique (.const 0)
  rw [MvPolynomial.C_0, MvPolynomial.monomial_eq_zero] at hzero
  exact h.nonzero hzero

theorem isNumber_termTree (h : IsWritable (m, c)) (hne : m ≠ []) : (termTree m c).isNumber = false := by
  have hfactors : ∀ t ∈ m.toTrees, IsFactor t := List.forall_mem_map.mpr fun f hf => isFactor_factorTree (h.unknowns f hf)
  rw [termTree, if_neg (by simpa using hne)]
  split_ifs
  · exact Tree.isNumber_integerMultiple (by simpa [Monomial.toTrees] using hne) hfactors
  · rfl

/-- What is appended to a quiet layout stays quiet, if two numbers never meet. -/
theorem allQuiet_appendTerms {t : Tree} (ht : LaidOut t) (hquiet : t.AllQuiet) {rest : List (Monomial × Rat)}
    (hrest : ∀ s ∈ rest, IsWritable s) (hzero : t ≠ .const 0) (hnumber : t.isNumber = true → ∀ s ∈ rest, s.1 ≠ []) :
    (appendTerms t rest).AllQuiet := by
  induction rest generalizing t with
  | nil => exact hquiet
  | cons s rest ih =>
    obtain ⟨m, c⟩ := s
    obtain ⟨hs, hrest⟩ := List.forall_mem_cons.mp hrest
    have hstep {op : Op} (hop : op = .add ∨ op = .sub) {d : Rat} (hs : IsWritable (m, d)) (hd : 0 < d) :
        (Tree.binary op t (termTree m d)).AllQuiet := by
      obtain ⟨hlaid, -⟩ := laidOut_termTree hs.nonzero hs.unknowns
      rw [Tree.binary_sum hop ht.stripParens hlaid.stripParens (isUnsigned_termTree hd hs.unknowns)]
      refine Tree.allQuiet_sum hop ?_ (ht.stripParens.symm ▸ hzero) (hlaid.stripParens.symm ▸ termTree_ne_zero hs) hquiet
        (allQuiet_termTree hs)
      cases hcase : t.isNumber with
      | false => exact .inl rfl
      | true => exact .inr (isNumber_termTree hs (hnumber hcase (m, c) List.mem_cons_self))
    have hlast {op : Op} {u : Tree} : Tree.binary op t u ≠ .const 0 ∧ ((Tree.binary op t u).isNumber = true → ∀ s ∈ rest, s.1 ≠ []) :=
      ⟨by simp [Tree.binary], by simp [Tree.binary, Tree.isNumber, Tree.stripParens]⟩
    rw [appendTerms]
    split_ifs with hneg
    · obtain ⟨hlaid, -⟩ := laidOut_termTree hs.neg.nonzero hs.unknowns
      exact ih (.minus ht hlaid) (hstep (.inr rfl) hs.neg (neg_pos.mpr hneg)) hrest hlast.1 hlast.2
    · obtain ⟨hlaid, -⟩ := laidOut_termTree hs.nonzero hs.unknowns
      have hpos : 0 < c := lt_of_le_of_ne (not_lt.mp hneg) (Ne.symm hs.nonzero)
      exact ih (.plus ht hlaid) (hstep (.inl rfl) hs hpos) hrest hlast.1 hlast.2

/-- Nothing is found at the nodes of a layout of different monomials. -/
theorem allQuiet_layout {l : List (Monomial × Rat)} (hl : ∀ s ∈ l, IsWritable s) (hdistinct : (l.map (·.1)).Nodup) :
    (layout l).AllQuiet := by
  cases l with
  | nil => exact Tree.allQuiet_const 0
  | cons s rest =>
    obtain ⟨m, c⟩ := s
    obtain ⟨hs, hrest⟩ := List.forall_mem_cons.mp hl
    obtain ⟨hnew, -⟩ := List.nodup_cons.mp hdistinct
    refine allQuiet_appendTerms (laidOut_termTree hs.nonzero hs.unknowns).1 (allQuiet_termTree hs) hrest (termTree_ne_zero hs) ?_
    intro hnumber r hr hempty
    have hne : m ≠ [] := fun hm => hnew (List.mem_map.mpr ⟨r, hr, hempty.trans hm.symm⟩)
    simp [isNumber_termTree hs hne] at hnumber

end Polynomial

end AlgebraTutor
