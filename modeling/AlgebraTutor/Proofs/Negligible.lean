import AlgebraTutor.Proofs.Canonical.Swapped
import AlgebraTutor.Proofs.Polynomial.Rounded
import AlgebraTutor.Proofs.Reader.Rereading

/-!
# Opposite differences

Taken the other way round, a difference is negligible as well. Between polynomials that is a fact: the two normal forms are
written as zero together, have the same unknowns, and the rounded value of the one is the negative of that of the other at
every probe. Of other trees it rests on what the algebra behind the tutor answers for the two differences.
-/

namespace AlgebraTutor

open AlgebraTutor.Tree (letterPolynomials simplify_of_denotes holds_toTree)

/-! ### Polynomials -/

section Polynomial

variable {config : Config} {p : Polynomial} {t u : Tree} {f : MvPolynomial String ℚ}

/-- The negative of a polynomial has no unknown of its own. -/
theorem Polynomial.length_unknowns_neg_le (hp : p.Canonical) (ht : letterPolynomials.Holds t p.toMv) :
    p.neg.toTree.unknowns.length ≤ p.toTree.unknowns.length := by
  have hsimplify : p.toTree.negate.simplify = .ok p.neg.toTree :=
    simplify_of_denotes (canonical_neg hp) (holds_neg (holds_toTree hp ht)).1
  have hsubset : p.neg.toTree.unknowns ⊆ p.toTree.unknowns := fun v hv =>
    Tree.mem_unknowns_of_negate (Tree.unknowns_simplify_subset hsimplify hv)
  exact (List.subperm_of_subset p.neg.toTree.nodup_unknowns hsubset).length_le

theorem Polynomial.neg_eq_nil_iff {p : Polynomial} : p.neg = [] ↔ p = [] := by
  rw [neg_eq_map, List.map_eq_nil_iff]

/-- A polynomial that is not written as zero has a negative that is not. -/
theorem Polynomial.isWrittenAsZero_toTree_neg (hp : p.Canonical) (ht : letterPolynomials.Holds t p.toMv)
    (h : p.toTree.isWrittenAsZero = .ok false) : p.neg.toTree.isWrittenAsZero = .ok false := by
  obtain ⟨cs, hcs, -⟩ := Answer.bind_eq_ok_iff.mp h
  obtain ⟨ds, hds⟩ := (composed_toTree_neg hp ht hcs).exists_chars
  have hwritten : p.neg.toTree.isWrittenAsZero = .ok (ds == ['0'] || p.neg.toTree == .const 0) := by
    rw [Tree.isWrittenAsZero, hds]
    rfl
  cases hzero : ds == ['0'] || p.neg.toTree == .const 0 with
  | false => rw [hwritten, hzero]
  | true =>
    have hvalue := Tree.eq_zero_of_isWrittenAsZero (canonical_neg hp) (holds_neg ht) (hwritten.trans (by rw [hzero]))
    obtain rfl := neg_eq_nil_iff.mp (toMv_injective (canonical_neg hp) canonical_nil hvalue)
    have htrue : (Polynomial.toTree []).isWrittenAsZero = .ok true := rfl
    simp [htrue] at h

/-- The negative of a polynomial that is negligible is negligible. -/
theorem isNegligible_of_neg (ht : letterPolynomials.Holds t f) (hu : u.Denotes (-f)) (h : isNegligible config t = .ok true) :
    isNegligible config u = .ok true := by
  obtain ⟨p, hp, rfl⟩ := ht.1.exists_canonical
  have hneg := Polynomial.canonical_neg hp
  rw [← Polynomial.toMv_neg] at hu
  obtain ⟨v, hv, hcases⟩ := isNegligible_eq_ok_true_iff.mp h
  obtain rfl := Except.ok.inj ((simplify_of_denotes hp ht.1).symm.trans hv)
  refine isNegligible_eq_ok_true_iff.mpr ⟨p.neg.toTree, simplify_of_denotes hneg hu, ?_⟩
  rcases hcases with hzero | ⟨hzero, hfew, hnear⟩
  · obtain rfl := Polynomial.toMv_injective hp Polynomial.canonical_nil (Tree.eq_zero_of_isWrittenAsZero hp ht hzero)
    exact .inl rfl
  · refine .inr ⟨Polynomial.isWrittenAsZero_toTree_neg hp ht hzero, (Polynomial.length_unknowns_neg_le hp ht).trans hfew, ?_⟩
    have hback := Tree.polynomial?_eq_some_iff.mpr ⟨hp, (holds_toTree hp ht).1⟩
    have hbackneg := Tree.polynomial?_eq_some_iff.mpr ⟨hneg, (holds_toTree hneg (Polynomial.holds_neg ht)).1⟩
    simpa only [Config.IsNearZero, hback, hbackneg, Polynomial.vanishesAt_neg] using hnear

end Polynomial

/-! ### Other trees -/

/-- What the algebra behind the tutor answers for a difference and for the same difference taken the other way round: both
answers are written as zero, or neither is; they have the same unknowns; and with one unknown at most, they are opposite
polynomials, or have values of the same size at the probes. -/
structure Config.Opposite (config : Config) (v w : Tree) : Prop where
  zero : v.isWrittenAsZero.toOption = w.isWrittenAsZero.toOption
  unknowns : v.unknowns = w.unknowns
  values : v.unknowns.length ≤ 1 → (∃ f, v.Denotes f ∧ w.Denotes (-f)) ∨
    v.polynomial? = none ∧ w.polynomial? = none ∧ config.sizes? v = config.sizes? w

/-- The differences of two trees cannot be simplified either way, or they simplify to opposite trees. -/
def Config.Opposes (config : Config) (t u : Tree) : Prop :=
  Option.Rel config.Opposite (Tree.binary .sub t u).simplify.toOption (Tree.binary .sub u t).simplify.toOption

namespace Config

variable {config : Config} {t u v w : Tree}

theorem Opposite.symm (h : config.Opposite v w) : config.Opposite w v where
  zero := h.zero.symm
  unknowns := h.unknowns.symm
  values hfew := by
    rcases h.values (h.unknowns ▸ hfew) with ⟨f, hf, hneg⟩ | ⟨hv, hw, hsizes⟩
    · exact .inl ⟨-f, hneg, (neg_neg f).symm ▸ hf⟩
    · exact .inr ⟨hw, hv, hsizes.symm⟩

theorem Opposite.isNearZero (h : config.Opposite v w) (hfew : v.unknowns.length ≤ 1) (hnear : config.IsNearZero v) :
    config.IsNearZero w := by
  rcases h.values hfew with ⟨f, hf, hneg⟩ | ⟨hv, hw, hsizes⟩
  · obtain ⟨p, hp, rfl⟩ := hf.exists_canonical
    have hpolynomial := Tree.polynomial?_eq_some_iff.mpr ⟨hp, hf⟩
    have hopposite := Tree.polynomial?_eq_some_iff.mpr ⟨Polynomial.canonical_neg hp, p.toMv_neg ▸ hneg⟩
    simpa only [IsNearZero, hpolynomial, hopposite, Polynomial.vanishesAt_neg] using hnear
  · simpa only [IsNearZero, hv, hw, hsizes] using hnear

theorem Opposes.symm (h : config.Opposes t u) : config.Opposes u t := by
  unfold Opposes at h ⊢
  generalize (Tree.binary .sub t u).simplify.toOption = v, (Tree.binary .sub u t).simplify.toOption = w at h
  cases h with
  | none => exact .none
  | some h => exact .some h.symm

theorem Opposes.exists_opposite (h : config.Opposes t u) (hv : (Tree.binary .sub t u).simplify = .ok v) :
    ∃ w, (Tree.binary .sub u t).simplify = .ok w ∧ config.Opposite v w := by
  rw [Opposes, hv] at h
  cases hw : (Tree.binary .sub u t).simplify with
  | error failure =>
    rw [hw] at h
    cases h
  | ok w =>
    rw [hw] at h
    cases h with
    | some h => exact ⟨w, rfl, h⟩

theorem Opposes.isNegligible (h : config.Opposes t u) (hnegligible : isNegligible config (.binary .sub t u) = .ok true) :
    AlgebraTutor.isNegligible config (.binary .sub u t) = .ok true := by
  obtain ⟨v, hv, hcases⟩ := isNegligible_eq_ok_true_iff.mp hnegligible
  obtain ⟨w, hw, hopposite⟩ := h.exists_opposite hv
  have hzero {b : Bool} (hb : v.isWrittenAsZero = .ok b) : w.isWrittenAsZero = .ok b := by
    have hsame := hopposite.zero
    rw [hb] at hsame
    cases hw : w.isWrittenAsZero with
    | error failure => simp [hw, Except.toOption] at hsame
    | ok b' => simpa [hw, Except.toOption] using hsame.symm
  refine isNegligible_eq_ok_true_iff.mpr ⟨w, hw, hcases.imp hzero ?_⟩
  rintro ⟨hnonzero, hfew, hnear⟩
  exact ⟨hzero hnonzero, hopposite.unknowns ▸ hfew, hopposite.isNearZero hfew hnear⟩

end Config

end AlgebraTutor
