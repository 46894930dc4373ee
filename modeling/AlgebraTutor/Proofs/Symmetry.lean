import AlgebraTutor.Proofs.Canonical.Assembled
import AlgebraTutor.Proofs.Negligible
import AlgebraTutor.Proofs.Reader.Printed

/-!
# Equivalence both ways

Whether two inputs are equivalent does not depend on their order: the same two texts are compared, their difference can be
read both ways or neither way, and the two trees are opposite differences. Only expressions in which functions are applied
and powers written with double stars are read in another way next to another text. What the tutor accepts holds no two stars
in a row, but other signs of multiplication are read as stars.
-/

namespace AlgebraTutor

/-! ### The texts that are compared -/

/-- Two inputs are compared by these texts: two expressions by their own, other inputs by those of their canonical trees. -/
inductive Compares (config : Config) (a b : String) : String → String → Prop
  | expressions {p q : Input} {t u : Tree} (hp : Input.ofText a = .ok p) (hq : Input.ofText b = .ok q)
      (hexpressions : (p.isEquation || q.isEquation) = false) (ht : Tree.ofText p.trimmed = .ok t)
      (hu : Tree.ofText q.trimmed = .ok u) : Compares config a b p.trimmed q.trimmed
  | equations {p q : Input} {t u : Tree} {left right : String} (hp : Input.ofText a = .ok p) (hq : Input.ofText b = .ok q)
      (hequations : (p.isEquation || q.isEquation) = true) (ht : canonicalTree config a = .ok t)
      (hu : canonicalTree config b = .ok u) (hleft : t.text = .ok left) (hright : u.text = .ok right) :
      Compares config a b left right

section Compares

variable {config : Config} {a b left right : String}

theorem Compares.symm (h : Compares config a b left right) : Compares config b a right left := by
  cases h with
  | expressions hp hq hexpressions ht hu => exact .expressions hq hp ((Bool.or_comm ..).trans hexpressions) hu ht
  | equations hp hq hequations ht hu hleft hright => exact .equations hq hp ((Bool.or_comm ..).trans hequations) hu ht hright hleft

/-- Inputs are equivalent the other way round if the difference of the compared texts can be read and is negligible the other
way round. -/
theorem judgeEquivalent_swap (h : judgeEquivalent config a b = .ok true)
    (hexchange : ∀ left right d, Compares config a b left right → readDifference left right = .ok d →
      isNegligible config d = .ok true → ∃ d', readDifference right left = .ok d' ∧ isNegligible config d' = .ok true) :
    judgeEquivalent config b a = .ok true := by
  obtain ⟨p, hp, h⟩ := Answer.bind_eq_ok_iff.mp h
  obtain ⟨q, hq, h⟩ := Answer.bind_eq_ok_iff.mp h
  simp only [judgeEquivalent, hp, hq, Answer.ok_bind, Bool.or_comm q.isEquation]
  cases hequations : p.isEquation || q.isEquation with
  | true =>
    rw [hequations, if_pos rfl] at h
    obtain ⟨t, ht, h⟩ := Answer.bind_eq_ok_iff.mp h
    obtain ⟨u, hu, h⟩ := Answer.bind_eq_ok_iff.mp h
    rw [if_pos rfl, ht, hu, Answer.ok_bind, Answer.ok_bind]
    split_ifs at h with hsame
    · rw [if_pos hsame.symm]
      rfl
    · obtain ⟨left, hleft, h⟩ := Answer.bind_eq_ok_iff.mp h
      obtain ⟨right, hright, h⟩ := Answer.bind_eq_ok_iff.mp h
      obtain ⟨d, hd, hnegligible⟩ := Answer.bind_eq_ok_iff.mp h
      obtain ⟨d', hd', hnegligible'⟩ := hexchange left right d (.equations hp hq hequations ht hu hleft hright) hd hnegligible
      rw [if_neg (Ne.symm hsame), hright, hleft, Answer.ok_bind, Answer.ok_bind, hd', Answer.ok_bind, hnegligible']
  | false =>
    rw [hequations, if_neg Bool.false_ne_true] at h
    obtain ⟨t, ht, h⟩ := Answer.bind_eq_ok_iff.mp h
    obtain ⟨u, hu, h⟩ := Answer.bind_eq_ok_iff.mp h
    rw [if_neg Bool.false_ne_true, ht, hu, Answer.ok_bind, Answer.ok_bind]
    split_ifs at h with hsame
    · rw [if_pos hsame.symm]
      rfl
    · obtain ⟨d, hd, hnegligible⟩ := Answer.bind_eq_ok_iff.mp h
      obtain ⟨d', hd', hnegligible'⟩ := hexchange _ _ d (.expressions hp hq hequations ht hu) hd hnegligible
      rw [if_neg (Ne.symm hsame), hd', Answer.ok_bind, hnegligible']

/-- The difference of the compared texts is read as a difference, and the other way round as its opposite. -/
theorem Compares.exists_readDifference (h : Compares config a b left right) {d : Tree}
    (hunmixed : ∀ p q, Input.ofText a = .ok p → Input.ofText b = .ok q → (p.isEquation || q.isEquation) = false →
      IsUnmixed p.trimmed ∧ IsUnmixed q.trimmed) (hd : readDifference left right = .ok d) :
    ∃ t u, d = .binary .sub t u ∧ readDifference right left = .ok (.binary .sub u t) := by
  cases h with
  | expressions hp hq hexpressions ht hu =>
    obtain ⟨hleft, hright⟩ := hunmixed _ _ hp hq hexpressions
    have hlefttrim := (Input.trimmed_of_ofText hp).1
    have hrighttrim := (Input.trimmed_of_ofText hq).1
    exact ⟨_, _, Except.ok.inj (hd.symm.trans (hleft.ofText_difference hright hlefttrim hrighttrim ht hu)),
      hright.ofText_difference hleft hrighttrim hlefttrim hu ht⟩
  | equations _ _ _ ht hu hleft hright =>
    exact Tree.ofText_difference_exchange ((assembled_canonicalTree ht).isGroupable hleft)
      ((assembled_canonicalTree hu).isGroupable hright) hd

end Compares

/-! ### Equivalence both ways -/

/-- The difference of a polynomial tree the other way round. -/
theorem Tree.Denotes.exchange {t u : Tree} {f : MvPolynomial String ℚ} (h : (Tree.binary .sub t u).Denotes f) :
    (Tree.binary .sub u t).Denotes (-f) := by
  cases h with
  | @sub _ _ f g hf hg =>
    have ht : t.Denotes f := Tree.interpretation.holds_stripParens.mp (Tree.interpretation.holds_parenIf.mp hf)
    have hu : u.Denotes g := Tree.interpretation.holds_stripParens.mp (Tree.interpretation.holds_parenIf.mp hg)
    rw [neg_sub]
    exact Tree.interpretation.holds_binary_sub hu ht

/-- A difference that is negligible is negligible the other way round: between polynomials as it stands, otherwise if the
differences are opposite. -/
theorem isNegligible_exchange {config : Config} {text : String} {t u : Tree} (hread : Tree.ofText text = .ok (.binary .sub t u))
    (hopposes : (Tree.binary .sub t u).polynomial? = none → config.Opposes t u)
    (h : isNegligible config (.binary .sub t u) = .ok true) : isNegligible config (.binary .sub u t) = .ok true := by
  cases hpolynomial : (Tree.binary .sub t u).polynomial? with
  | none => exact (hopposes hpolynomial).isNegligible h
  | some p =>
    have hdenotes := (Tree.polynomial?_eq_some_iff.mp hpolynomial).2
    exact isNegligible_of_neg (hdenotes.holds_of_ofText hread) hdenotes.exchange h

theorem Tree.polynomial?_exchange {t u : Tree} (h : (Tree.binary .sub t u).polynomial? = none) :
    (Tree.binary .sub u t).polynomial? = none := by
  cases hback : (Tree.binary .sub u t).polynomial? with
  | none => rfl
  | some p =>
    have hdenotes := (polynomial?_eq_some_iff.mp hback).2.exchange
    obtain ⟨q, hq, hvalue⟩ := hdenotes.exists_canonical
    rw [← hvalue] at hdenotes
    simp [polynomial?_eq_some_iff.mpr ⟨hq, hdenotes⟩] at h

theorem equivalent_exchange {config : Config} {a b : String}
    (hunmixed : ∀ p q, Input.ofText a = .ok p → Input.ofText b = .ok q → (p.isEquation || q.isEquation) = false →
      IsUnmixed p.trimmed ∧ IsUnmixed q.trimmed)
    (hopposes : ∀ left right t u, Compares config a b left right → readDifference left right = .ok (.binary .sub t u) →
      readDifference right left = .ok (.binary .sub u t) → (Tree.binary .sub t u).polynomial? = none → config.Opposes t u)
    (h : equivalent config a b = true) : equivalent config b a = true := by
  refine equivalent_of_judgeEquivalent (judgeEquivalent_swap (judgeEquivalent_of_equivalent h) ?_)
  intro left right d hcompares hd hnegligible
  obtain ⟨t, u, rfl, hd'⟩ := hcompares.exists_readDifference hunmixed hd
  exact ⟨_, hd', isNegligible_exchange hd (hopposes left right t u hcompares hd hd') hnegligible⟩

/-- Equivalence does not depend on the order of the inputs, if two expressions do not mix functions with powers in double stars,
and the algebra behind the tutor answers alike for a difference that is no polynomial and for its opposite. -/
theorem equivalent_comm (config : Config) (a b : String)
    (hunmixed : ∀ p q, Input.ofText a = .ok p → Input.ofText b = .ok q → (p.isEquation || q.isEquation) = false →
      IsUnmixed p.trimmed ∧ IsUnmixed q.trimmed)
    (hopposes : ∀ left right t u, Compares config a b left right → readDifference left right = .ok (.binary .sub t u) →
      readDifference right left = .ok (.binary .sub u t) → (Tree.binary .sub t u).polynomial? = none → config.Opposes t u) :
    equivalent config a b = equivalent config b a := by
  refine Bool.eq_iff_iff.mpr ⟨equivalent_exchange hunmixed hopposes, equivalent_exchange ?_ ?_⟩
  · exact fun p q hp hq hexpressions => (hunmixed q p hq hp ((Bool.or_comm ..).trans hexpressions)).symm
  · intro left right t u hcompares hd hd' hpolynomial
    exact (hopposes right left u t hcompares.symm hd' hd (Tree.polynomial?_exchange hpolynomial)).symm

/-- Two is its own absolute value, either way. -/
theorem equivalent_comm_absolute : equivalent .standard "2" "abs(2)" = true := by
  have habs : Input.ofText "abs(2)" = .ok ⟨"abs(2)", none⟩ := by decide +kernel
  have htwo : Input.ofText "2" = .ok ⟨"2", none⟩ := rfl
  rw [← equivalent_comm .standard "abs(2)" "2" (fun p q hp hq _ => ?_) fun left right t u hcompares hd hd' _ => ?_]
  · decide +kernel
  · obtain rfl := Except.ok.inj (habs.symm.trans hp)
    obtain rfl := Except.ok.inj (htwo.symm.trans hq)
    exact ⟨.inl (by decide +kernel), .inl (by decide +kernel)⟩
  · cases hcompares with
    | expressions hp hq =>
      obtain rfl := Except.ok.inj (habs.symm.trans hp)
      obtain rfl := Except.ok.inj (htwo.symm.trans hq)
      have hfirst : (Tree.binary .sub t u).simplify = .ok (.const 0) := by
        have hanswer : (readDifference "abs(2)" "2" >>= Tree.simplify) = .ok (.const 0) := by decide +kernel
        rw [hd, Answer.ok_bind] at hanswer
        exact hanswer
      have hsecond : (Tree.binary .sub u t).simplify = .ok (.const 0) := by
        have hanswer : (readDifference "2" "abs(2)" >>= Tree.simplify) = .ok (.const 0) := by decide +kernel
        rw [hd', Answer.ok_bind] at hanswer
        exact hanswer
      rw [Config.Opposes, hfirst, hsecond]
      exact .some ⟨rfl, rfl, fun _ => .inl ⟨_, .const 0, by simpa using Tree.Denotes.const 0⟩⟩
    | equations hp hq hequations =>
      obtain rfl := Except.ok.inj (habs.symm.trans hp)
      obtain rfl := Except.ok.inj (htwo.symm.trans hq)
      exact absurd hequations (by decide)

/-- An expression in which functions are raised to powers in double stars: in the difference the powers move to other arguments
on the left than on the right. -/
theorem equivalent_functions_in_powers : equivalent .standard "abs××2(abs××1)(abs××1)(2)" "4" = false ∧
    equivalent .standard "4" "abs××2(abs××1)(abs××1)(2)" = true := by
  decide +kernel

end AlgebraTutor
