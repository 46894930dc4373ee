import AlgebraTutor.Canonical.Coefficient
import AlgebraTutor.Proofs.Polynomial.Layout
import AlgebraTutor.Proofs.Tree.WellFormed

/-!
# The shapes of a layout

The layout of a polynomial is built of few shapes: integers, powers of unknowns and their negatives, products with a
power of an unknown as the right factor, quotients by a number, and sums and differences of these. A rebuilding stage
that keeps each shape keeps the layout, as the one that tidies coefficients does, and automatic simplification alone makes
a sum of monomials of it.
-/

namespace AlgebraTutor

namespace Tree

/-- A single letter that does not name a number. -/
def IsUnknown (w : String) : Prop :=
  (∃ c : Char, c.isAlpha = true ∧ w = c.toString) ∧ isNamedConstant w = false

/-- An unknown, or a power of one. -/
inductive IsFactor : Tree → Prop
  | symbol {w : String} (hw : IsUnknown w) : IsFactor (.symbol w)
  | power {w : String} (hw : IsUnknown w) (n : Nat) : IsFactor (binary .pow (.symbol w) (.const n))

/-- A number that is written in front of a product. -/
def IsCoefficient (value : Rat) : Prop :=
  value ≠ 0 ∧ value ≠ 1 ∧ value ≠ -1

/-- The trees that polynomials are laid out as. -/
inductive LaidOut : Tree → Prop
  | const (n : Int) : LaidOut (.const n)
  | factor {t : Tree} (ht : IsFactor t) : LaidOut t
  | negative {t : Tree} (ht : IsFactor t) : LaidOut t.negate
  | times {t u : Tree} (ht : LaidOut t) (hprecedence : 2 ≤ t.precedence) (hvalue : ∀ value, t = .const value → IsCoefficient value)
    (hu : IsFactor u) : LaidOut (binary .mul t u)
  | quotient {t : Tree} (ht : LaidOut t) (hprecedence : 2 ≤ t.precedence) {n : Nat} (hn : n ≠ 0) :
    LaidOut (binary .div t (.const n))
  | plus {t u : Tree} (ht : LaidOut t) (hu : LaidOut u) : LaidOut (binary .add t u)
  | minus {t u : Tree} (ht : LaidOut t) (hu : LaidOut u) : LaidOut (binary .sub t u)

variable {t u : Tree}

theorem IsFactor.stripParens (h : IsFactor t) : t.stripParens = t := by
  cases h <;> rfl

theorem IsFactor.negate (h : IsFactor t) : t.negate = .apply .sub [t] := by
  cases h <;> rfl

theorem IsFactor.precedence (h : IsFactor t) : 4 ≤ t.precedence := by
  cases h with
  | symbol => exact (by decide : 4 ≤ atomPrecedence)
  | power => exact Nat.le_refl 4

theorem LaidOut.stripParens (h : LaidOut t) : t.stripParens = t := by
  cases h with
  | const | times | quotient | plus | minus => rfl
  | factor ht => exact ht.stripParens
  | negative ht => exact stripParens_negate _

/-! ### Rebuilding -/

/-- What is done to a node leaves the shapes of a layout as they are. -/
structure KeepsLayout (f : Tree → Tree) : Prop where
  const : ∀ value, f (.const value) = .const value
  symbol : ∀ name, f (.symbol name) = .symbol name
  sign : ∀ t, f (.apply .sub [t]) = .apply .sub [t]
  other : ∀ op l r, op ≠ .mul → f (.apply op [l, r]) = .apply op [l, r]
  product : ∀ t u, LaidOut t → 2 ≤ t.precedence → (∀ value, t = .const value → IsCoefficient value) → IsFactor u →
    f (binary .mul t u) = binary .mul t u

section Rebuild

variable {f : Tree → Tree}

theorem rebuild_const (hf : KeepsLayout f) (value : Rat) : (const value).rebuild f = .ok (.const value) :=
  congrArg _ (hf.const value)

theorem IsFactor.rebuild (h : IsFactor t) (hf : KeepsLayout f) : t.rebuild f = .ok t := by
  cases h with
  | symbol hw => exact congrArg _ (hf.symbol _)
  | @power w hw n =>
    have hbase : (Tree.symbol w).rebuild f = .ok (.symbol w) := congrArg _ (hf.symbol w)
    rw [rebuild_binary rfl rfl rfl hbase (rebuild_const hf _)]
    exact congrArg _ (hf.other _ _ _ (by simp))

theorem LaidOut.rebuild (h : LaidOut t) (hf : KeepsLayout f) : t.rebuild f = .ok t := by
  induction h with
  | const n => exact rebuild_const hf n
  | factor ht => exact ht.rebuild hf
  | @negative t ht =>
    have hbuilt : build .sub [t] = .ok t.negate := rfl
    rw [ht.negate] at hbuilt ⊢
    simp [Tree.rebuild, rebuildAll, ht.rebuild hf, hbuilt, hf.sign]
  | times ht hprecedence hvalue hu ih =>
    rw [rebuild_binary rfl ht.stripParens hu.stripParens ih (hu.rebuild hf), hf.product _ _ ht hprecedence hvalue hu]
  | quotient ht _ _ ih =>
    rw [rebuild_binary rfl ht.stripParens rfl ih (rebuild_const hf _)]
    exact congrArg _ (hf.other _ _ _ (by simp))
  | plus ht hu iht ihu | minus ht hu iht ihu =>
    rw [rebuild_binary rfl ht.stripParens hu.stripParens iht ihu]
    exact congrArg _ (hf.other _ _ _ (by simp))

end Rebuild

theorem IsFactor.not_const (h : IsFactor t) (value : Rat) : t ≠ .const value := by
  cases h <;> nofun

theorem keepsLayout_coefficientNode : KeepsLayout coefficientNode where
  const _ := rfl
  symbol _ := rfl
  sign _ := rfl
  other op l r hop := by
    cases op with
    | mul => exact absurd rfl hop
    | _ => rfl
  product t u ht _ hvalue hu := by
    rw [binary, ht.stripParens, hu.stripParens, coefficientNode, stripParens_parenIf ht.stripParens,
      stripParens_parenIf hu.stripParens]
    split
    · obtain ⟨hzero, hone, hminus⟩ := hvalue _ rfl
      rw [coefficientProduct, if_neg hzero, if_neg hone, if_neg hminus]
    · exact absurd rfl (hu.not_const _)
    · rfl

end Tree

/-! ### Sums of monomials -/

namespace Polynomial

theorem length_const_le (c : Rat) : (const c).length ≤ 1 := by
  unfold const
  split <;> simp

theorem length_scale_le (c : Rat) (p : Polynomial) : (scale c p).length ≤ p.length := by
  unfold scale
  split <;> simp

theorem length_mul_le_one {p q : Polynomial} (hp : p.length ≤ 1) (hq : q.length ≤ 1) : (mul p q).length ≤ 1 := by
  match p, hp with
  | [], _ => simp [mul]
  | [(m, c)], _ =>
    have hterm : (mulTerm m c q).length ≤ 1 := by
      unfold mulTerm
      split <;> simp [hq]
    cases hcase : mulTerm m c q with
    | nil => simp [mul, hcase, add]
    | cons t r => simpa [mul, hcase, add] using hterm

theorem length_pow_le_one {p : Polynomial} (hp : p.length ≤ 1) (n : Nat) : (pow p n).length ≤ 1 := by
  match p, hp with
  | [], _ =>
    rw [pow]
    split
    · exact length_const_le 1
    · simp
  | [(m, c)], _ => simp [pow]

end Polynomial

namespace Tree

variable {t u : Tree}

theorem divisorOf?_const {c : Rat} (hc : c ≠ 0) : divisorOf? (.const c) = some c :=
  (divisorOf?_eq_some_iff (Polynomial.canonical_const c)).mpr ⟨Polynomial.toMv_const c, hc⟩

theorem naturalOf?_const (n : Nat) : naturalOf? (.const n) = some n :=
  (naturalOf?_eq_some_iff (Polynomial.canonical_const n)).mpr (Polynomial.toMv_const n)

theorem sumOfMonomials?_parenIf (needed : Bool) (t : Tree) : (parenIf needed t).sumOfMonomials? = t.sumOfMonomials? := by
  cases needed <;> rfl

theorem polynomial?_parenIf (needed : Bool) (t : Tree) : (parenIf needed t).polynomial? = t.polynomial? := by
  cases needed <;> rfl

theorem IsFactor.sumOfMonomials? (h : IsFactor t) :
    ∃ p, t.sumOfMonomials? = some p ∧ t.polynomial? = some p ∧ p.length ≤ 1 := by
  cases h with
  | @symbol w hw =>
    exact ⟨.var w, by simp [Tree.sumOfMonomials?, hw.2], by simp [Tree.polynomial?, hw.2], Nat.le_refl 1⟩
  | @power w hw n =>
    have hconstant (needed : Bool) : (parenIf needed (.const n)).isConstant = true := isConstant_parenIf needed _
    refine ⟨(Polynomial.var w).pow n, ?_, ?_, Polynomial.length_pow_le_one (by simp [Polynomial.var]) n⟩
    · simp [binary, Tree.stripParens, Tree.sumOfMonomials?, sumOfMonomials?_parenIf, hconstant, hw.2, naturalOf?_const,
        Polynomial.var]
    · simp [binary, Tree.stripParens, Tree.polynomial?, polynomial?_parenIf, hconstant, hw.2, naturalOf?_const]

/-- What is laid out is the polynomial that it denotes already, and what is no sum is a single term. -/
theorem LaidOut.sumOfMonomials? (h : LaidOut t) :
    ∃ p, t.sumOfMonomials? = some p ∧ t.polynomial? = some p ∧ (2 ≤ t.precedence → p.length ≤ 1) := by
  induction h with
  | const n => exact ⟨.const n, rfl, rfl, fun _ => Polynomial.length_const_le _⟩
  | factor ht =>
    obtain ⟨p, hsum, hp, hlength⟩ := ht.sumOfMonomials?
    exact ⟨p, hsum, hp, fun _ => hlength⟩
  | negative ht =>
    obtain ⟨p, hsum, hp, hlength⟩ := ht.sumOfMonomials?
    rw [ht.negate]
    exact ⟨p.neg, by simp [Tree.sumOfMonomials?, hsum], by simp [Tree.polynomial?, hp],
      fun _ => Nat.le_trans (Polynomial.length_scale_le _ p) hlength⟩
  | times ht hprecedence _ hu ih =>
    obtain ⟨p, hsum, hp, hlength⟩ := ih
    obtain ⟨q, hsum', hq, hlength'⟩ := hu.sumOfMonomials?
    rw [binary, ht.stripParens, hu.stripParens]
    refine ⟨p.mul q, ?_, ?_, fun _ => Polynomial.length_mul_le_one (hlength hprecedence) hlength'⟩
    · simp [Tree.sumOfMonomials?, sumOfMonomials?_parenIf, hsum, hsum', hlength hprecedence, hlength']
    · simp [Tree.polynomial?, polynomial?_parenIf, hp, hq]
  | @quotient t ht hprecedence n hn ih =>
    obtain ⟨p, hsum, hp, hlength⟩ := ih
    have hdivisor : divisorOf? (.const n) = some (n : Rat) := divisorOf?_const (by exact_mod_cast hn)
    rw [binary, ht.stripParens]
    refine ⟨p.scale (1 / n), ?_, ?_, fun _ => Nat.le_trans (Polynomial.length_scale_le _ p) (hlength hprecedence)⟩
    · simp [Tree.stripParens, Tree.sumOfMonomials?, sumOfMonomials?_parenIf, hsum, hdivisor]
    · simp [Tree.stripParens, Tree.polynomial?, polynomial?_parenIf, hp, hdivisor]
  | plus ht hu iht ihu =>
    obtain ⟨p, hsum, hp, -⟩ := iht
    obtain ⟨q, hsum', hq, -⟩ := ihu
    rw [binary, ht.stripParens, hu.stripParens]
    refine ⟨p.add q, ?_, ?_, fun hprecedence => absurd hprecedence (by simp [Tree.precedence, Op.precedence])⟩
    · simp [Tree.sumOfMonomials?, sumOfMonomials?_parenIf, hsum, hsum']
    · simp [Tree.polynomial?, polynomial?_parenIf, hp, hq]
  | minus ht hu iht ihu =>
    obtain ⟨p, hsum, hp, -⟩ := iht
    obtain ⟨q, hsum', hq, -⟩ := ihu
    rw [binary, ht.stripParens, hu.stripParens]
    refine ⟨p.add q.neg, ?_, ?_, fun hprecedence => absurd hprecedence (by simp [Tree.precedence, Op.precedence])⟩
    · simp [Tree.sumOfMonomials?, sumOfMonomials?_parenIf, hsum, hsum']
    · simp [Tree.polynomial?, polynomial?_parenIf, hp, hq]

/-! ### Built trees -/

theorem IsFactor.built (h : IsFactor t) : t.Built := by
  cases h with
  | symbol hw =>
    obtain ⟨⟨c, hc, rfl⟩, -⟩ := hw
    exact .letter c hc
  | power hw n =>
    obtain ⟨⟨c, hc, rfl⟩, -⟩ := hw
    exact .binary rfl (.letter c hc) (.integer n)

/-- What is laid out is built. -/
theorem LaidOut.built (h : LaidOut t) : t.Built := by
  induction h with
  | const n => exact .integer n
  | factor ht => exact ht.built
  | negative ht => exact ht.built.negate
  | times ht _ _ hu ih => exact .binary rfl ih hu.built
  | @quotient t _ _ n _ ih => exact .binary rfl ih (.integer n)
  | plus _ _ iht ihu | minus _ _ iht ihu => exact .binary rfl iht ihu

end Tree

/-! ### The layout of terms -/

namespace Polynomial

open AlgebraTutor.Tree (LaidOut IsFactor IsUnknown IsCoefficient)

/-- The terms have coefficients other than zero, and letters for unknowns. -/
def IsLettered (l : List (Monomial × Rat)) : Prop :=
  ∀ s ∈ l, s.2 ≠ 0 ∧ ∀ f ∈ s.1, IsUnknown f.1

theorem IsLettered.perm {l l' : List (Monomial × Rat)} (hl : IsLettered l) (h : l'.Perm l) : IsLettered l' :=
  fun s hs => hl s (h.subset hs)

theorem isFactor_factorTree {f : String × Nat} (hf : IsUnknown f.1) : IsFactor (Monomial.factorTree f) := by
  unfold Monomial.factorTree
  split
  · exact .symbol hf
  · exact .power hf f.2

theorem laidOut_foldl_mul {t : Tree} {us : List Tree} (ht : LaidOut t) (hprecedence : 2 ≤ t.precedence)
    (hvalue : us ≠ [] → ∀ value, t = .const value → IsCoefficient value) (hus : ∀ u ∈ us, IsFactor u) :
    LaidOut (us.foldl (Tree.binary .mul) t) ∧ 2 ≤ (us.foldl (Tree.binary .mul) t).precedence := by
  induction us generalizing t with
  | nil => exact ⟨ht, hprecedence⟩
  | cons u us ih =>
    have hproduct := LaidOut.times ht hprecedence (hvalue (by simp)) (hus u List.mem_cons_self)
    exact ih hproduct (Nat.le_refl 2) (fun _ _ h => by simp [Tree.binary] at h) fun v hv => hus v (List.mem_cons_of_mem u hv)

theorem laidOut_integerMultiple {n : Int} (hn : n ≠ 0) {ts : List Tree} (hne : ts ≠ []) (hts : ∀ t ∈ ts, IsFactor t) :
    LaidOut (Tree.integerMultiple n ts) ∧ 2 ≤ (Tree.integerMultiple n ts).precedence := by
  obtain ⟨t, us, rfl⟩ := List.exists_cons_of_ne_nil hne
  have ht := hts t List.mem_cons_self
  have hus : ∀ u ∈ us, IsFactor u := fun u hu => hts u (List.mem_cons_of_mem t hu)
  unfold Tree.integerMultiple
  split
  · exact laidOut_foldl_mul (.factor ht) (Nat.le_trans (by decide) ht.precedence)
      (fun _ value heq => absurd heq (ht.not_const value)) hus
  · rename_i hone
    split
    · refine laidOut_foldl_mul (.negative ht) ?_ (fun _ value heq => ?_) hus
      · rw [ht.negate]
        exact (by decide : 2 ≤ Tree.signPrecedence)
      · rw [ht.negate] at heq
        simp at heq
    · rename_i hminus
      refine laidOut_foldl_mul (.const n) ?_ (fun _ value heq => ?_) (by simpa using hts)
      · rw [Tree.precedence]
        split <;> decide
      · obtain rfl := Tree.const.inj heq
        exact ⟨by exact_mod_cast hn, by exact_mod_cast hone, by exact_mod_cast hminus⟩

theorem laidOut_termTree {m : Monomial} {c : Rat} (hc : c ≠ 0) (hm : ∀ f ∈ m, IsUnknown f.1) :
    LaidOut (termTree m c) ∧ 2 ≤ (termTree m c).precedence := by
  have hconst (n : Int) : LaidOut (.const n) ∧ 2 ≤ (Tree.const n).precedence := by
    refine ⟨.const n, ?_⟩
    rw [Tree.precedence]
    split <;> decide
  have hover {t : Tree} (ht : LaidOut t ∧ 2 ≤ t.precedence) :
      LaidOut (.binary .div t (.const c.den)) ∧ 2 ≤ (Tree.binary .div t (.const c.den)).precedence :=
    ⟨.quotient ht.1 ht.2 c.den_nz, Nat.le_refl 2⟩
  unfold termTree
  split
  · unfold Tree.ofRat
    split
    · exact hconst c.num
    · exact hover (hconst c.num)
  · rename_i hempty
    have hne : m.toTrees ≠ [] := by simpa [Monomial.toTrees] using hempty
    have hnumerator := laidOut_integerMultiple (Rat.num_ne_zero.mpr hc) hne
      (List.forall_mem_map.mpr fun f hf => isFactor_factorTree (hm f hf))
    split
    · exact hnumerator
    · exact hover hnumerator

theorem laidOut_appendTerms {t : Tree} (ht : LaidOut t) {rest : List (Monomial × Rat)} (hrest : IsLettered rest) :
    LaidOut (appendTerms t rest) := by
  induction rest generalizing t with
  | nil => exact ht
  | cons s rest ih =>
    obtain ⟨hc, hm⟩ := hrest s List.mem_cons_self
    rw [appendTerms]
    refine ih ?_ fun r hr => hrest r (List.mem_cons_of_mem s hr)
    split
    · exact .minus ht (laidOut_termTree (neg_ne_zero.mpr hc) hm).1
    · exact .plus ht (laidOut_termTree hc hm).1

theorem laidOut_layout {l : List (Monomial × Rat)} (hl : IsLettered l) : LaidOut (layout l) := by
  cases l with
  | nil => exact .const 0
  | cons s rest =>
    obtain ⟨hc, hm⟩ := hl s List.mem_cons_self
    exact laidOut_appendTerms (laidOut_termTree hc hm).1 fun r hr => hl r (List.mem_cons_of_mem s hr)

theorem IsLettered.laidOut_toTree {p : Polynomial} (hp : IsLettered p) : LaidOut p.toTree := by
  rw [toTree_eq_layout]
  exact laidOut_layout (hp.perm p.displayOrder_perm)

end Polynomial

end AlgebraTutor
