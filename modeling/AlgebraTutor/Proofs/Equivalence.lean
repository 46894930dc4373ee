import AlgebraTutor.Equivalence
import AlgebraTutor.Proofs.Canonical.Equation

/-!
# What equivalent inputs have in common

Inputs are judged equivalent if they have one tree, if their difference simplifies to zero, or if the difference, in one
unknown at most, is near zero at all probes. For polynomials the first two ways are exact. The third one is not: a polynomial
that vanishes at every probe need not be zero.
-/

namespace AlgebraTutor

open AlgebraTutor.Tree (letterPolynomials simplify_of_denotes holds_toTree)

/-- The polynomial has one unknown at most, and its rounded value at every probe is nearer to zero than the tolerance. -/
def Config.Neglects (config : Config) (f : MvPolynomial String ℚ) : Prop :=
  f.vars.card ≤ 1 ∧ ∃ p : Polynomial, p.Canonical ∧ p.toMv = f ∧ p.vanishesAt config.probes config.tolerance = true

/-! ### Negligible differences -/

/-- The absolute values that a tree has at the probes, if it can be sampled. -/
def Config.sizes? (config : Config) (t : Tree) : Option (List Float) :=
  (t.sample (t.unknowns.map fun name => (name, .row (config.probes.map Decimal.toFloat)))).toOption.map
    fun samples => samples.numbers.map Float.abs

/-- The tree is near zero at all probes: as a polynomial in exact arithmetic on doubles, or else as it is sampled. -/
def Config.IsNearZero (config : Config) (t : Tree) : Prop :=
  match t.polynomial? with
  | some p => p.vanishesAt config.probes config.tolerance = true
  | none => ∃ sizes, config.sizes? t = some sizes ∧ ∀ size ∈ sizes, size < Decimal.toFloat config.tolerance

theorem isNegligible_eq_ok_true_iff {config : Config} {difference : Tree} :
    isNegligible config difference = .ok true ↔ ∃ v, difference.simplify = .ok v ∧ (v.isWrittenAsZero = .ok true ∨
      v.isWrittenAsZero = .ok false ∧ v.unknowns.length ≤ 1 ∧ config.IsNearZero v) := by
  rw [isNegligible, Answer.bind_eq_ok_iff]
  refine exists_congr fun v => and_congr_right fun _ => ?_
  rcases hzero : v.isWrittenAsZero with failure | ⟨⟨⟩⟩
  · simp [bind, Except.bind]
  · simp only [Answer.ok_bind, Bool.false_eq_true, if_false, Except.ok.injEq, false_or, true_and, Config.IsNearZero]
    by_cases hmany : 1 < v.unknowns.length
    · simp [Answer.pure_eq_ok_iff, hmany]
    rw [if_neg hmany, and_iff_right (not_lt.mp hmany)]
    cases v.polynomial? with
    | some p => exact Answer.pure_eq_ok_iff
    | none =>
      rcases hsamples : v.sample (v.unknowns.map fun name => (name, .row (config.probes.map Decimal.toFloat))) with
        failure | samples
      · simp only [Config.sizes?, hsamples, Except.toOption, Option.map_none, reduceCtorEq, false_and, exists_false, iff_false]
        split_ifs <;> simp [pure, Except.pure]
      · simp [Config.sizes?, hsamples, Except.toOption, Answer.pure_eq_ok_iff]
  · simp

theorem Tree.Denotes.card_vars_le {t : Tree} {f : MvPolynomial String ℚ} (ht : t.Denotes f) :
    f.vars.card ≤ t.unknowns.length := by
  classical
  refine (Finset.card_le_card (t := t.unknowns.toFinset) fun v hv => ?_).trans (List.toFinset_card_le _)
  exact List.mem_toFinset.mpr (ht.mem_unknowns_of_mem_vars hv)

/-- A layout that is written as zero is zero. -/
theorem Tree.eq_zero_of_isWrittenAsZero {p : Polynomial} (hp : p.Canonical) {t : Tree} (ht : letterPolynomials.Holds t p.toMv)
    (h : p.toTree.isWrittenAsZero = .ok true) : p.toMv = 0 := by
  have hdenotes := (holds_toTree hp ht).1
  have hzero {u : Tree} (hu : p.toTree = u) (h : u.Denotes 0) : p.toMv = 0 := (hu ▸ hdenotes).unique h
  have hconst : (Tree.const 0).Denotes 0 := MvPolynomial.C_0 (R := ℚ) (σ := String) ▸ .const 0
  obtain ⟨cs, hcs, heq⟩ := Answer.bind_eq_ok_iff.mp h
  rcases Bool.or_eq_true_iff.mp (Answer.pure_eq_ok_iff.mp heq) with heq | heq
  · obtain rfl := beq_iff_eq.mp heq
    obtain ⟨s, hs, hread⟩ := Reader.ofText_of_composed ((laidOut_toTree hp ht).built.composed hcs)
    rw [Tree.text, hcs] at hs
    obtain rfl := Except.ok.inj hs
    have hdigit : Tree.ofText (String.ofList ['0']) = .ok (.const 0) := rfl
    exact hzero (Except.ok.inj (hread.symm.trans hdigit)) hconst
  · exact hzero (beq_iff_eq.mp heq) hconst

/-- A negligible difference is zero, or neglected at the probes. -/
theorem eq_zero_or_neglects {config : Config} {t : Tree} {f : MvPolynomial String ℚ} (ht : letterPolynomials.Holds t f)
    (h : isNegligible config t = .ok true) : f = 0 ∨ config.Neglects f := by
  obtain ⟨p, hp, rfl⟩ := ht.1.exists_canonical
  obtain ⟨v, hv, hcases⟩ := isNegligible_eq_ok_true_iff.mp h
  obtain rfl := Except.ok.inj ((simplify_of_denotes hp ht.1).symm.trans hv)
  have hdenotes := (holds_toTree hp ht).1
  rcases hcases with hzero | ⟨-, hfew, hnear⟩
  · exact .inl (Tree.eq_zero_of_isWrittenAsZero hp ht hzero)
  · rw [Config.IsNearZero, Tree.polynomial?_eq_some_iff.mpr ⟨hp, hdenotes⟩] at hnear
    exact .inr ⟨hdenotes.card_vars_le.trans hfew, p, hp, rfl, hnear⟩

/-! ### Equivalent polynomials -/

/-- The text is an expression, and is read as a tree that denotes the polynomial. -/
def IsPolynomialExpression (text : String) (f : MvPolynomial String ℚ) : Prop :=
  ∃ p t, Input.ofText text = .ok p ∧ p.equation = none ∧ Tree.ofText p.trimmed = .ok t ∧ t.Denotes f

theorem judgeEquivalent_of_equivalent {config : Config} {a b : String} (h : equivalent config a b = true) :
    judgeEquivalent config a b = .ok true := by
  unfold equivalent at h
  split at h
  · rename_i verdict hverdict
    rw [hverdict, h]
  · simp at h

theorem equivalent_of_judgeEquivalent {config : Config} {a b : String} (h : judgeEquivalent config a b = .ok true) :
    equivalent config a b = true := by
  rw [equivalent, h]

/-- The difference of the texts of two trees stands for the difference of their values. -/
theorem holds_readDifference {a b : String} {t u d : Tree} {f g : MvPolynomial String ℚ}
    (ha : Text.trimChars a.toList = a.toList) (hb : Text.trimChars b.toList = b.toList) (ht : Tree.ofText a = .ok t)
    (hu : Tree.ofText b = .ok u) (hf : t.Denotes f) (hg : u.Denotes g) (hd : readDifference a b = .ok d) :
    letterPolynomials.Holds d (f - g) := by
  have hread := Tree.ofText_differenceText ha hb ht hu hf.callFree hg.callFree
  obtain rfl := Except.ok.inj (hread.symm.trans hd)
  exact (Tree.interpretation.holds_binary_sub hf hg : (Tree.binary .sub t u).Denotes (f - g)).holds_of_ofText hread

theorem eq_or_neglects_of_expressions {config : Config} {a b : String} {f g : MvPolynomial String ℚ}
    (ha : IsPolynomialExpression a f) (hb : IsPolynomialExpression b g) (h : equivalent config a b = true) :
    f = g ∨ config.Neglects (f - g) := by
  obtain ⟨p, t, hp, hpexpression, ht, hf⟩ := ha
  obtain ⟨q, u, hq, hqexpression, hu, hg⟩ := hb
  have hjudge := judgeEquivalent_of_equivalent h
  have hplain : (p.isEquation || q.isEquation) = false := by simp [Input.isEquation, hpexpression, hqexpression]
  simp only [judgeEquivalent, hp, hq, ht, hu, Answer.ok_bind, hplain, Bool.false_eq_true, if_false] at hjudge
  split at hjudge
  · rename_i hsame
    exact .inl (hf.unique (hsame ▸ hg))
  · obtain ⟨d, hd, hnegligible⟩ := Answer.bind_eq_ok_iff.mp hjudge
    have hholds := holds_readDifference (Input.trimmed_of_ofText hp).1 (Input.trimmed_of_ofText hq).1 ht hu hf hg hd
    exact (eq_zero_or_neglects hholds hnegligible).imp_left sub_eq_zero.mp

/-- A layout is read back from its text, and has no blanks around it. -/
theorem ofText_text_toTree {p : Polynomial} (hp : p.Canonical) {t : Tree} (ht : letterPolynomials.Holds t p.toMv)
    {text : String} (htext : p.toTree.text = .ok text) :
    Tree.ofText text = .ok p.toTree ∧ Text.trimChars text.toList = text.toList := by
  obtain ⟨cs, hcs, heq⟩ := Answer.bind_eq_ok_iff.mp htext
  obtain rfl := Answer.pure_eq_ok_iff.mp heq
  obtain ⟨ps, q, hwrites, hmeans⟩ := Reader.Piece.exists_writes ((Tree.laidOut_toTree hp ht).built.composed hcs)
  obtain ⟨s, hs, hread⟩ := Reader.Piece.ofText_of_writes hwrites hmeans
  obtain rfl := Except.ok.inj (hs.symm.trans htext)
  obtain rfl := Except.ok.inj (hwrites.chars.symm.trans hcs)
  exact ⟨hread, by rw [String.toList_ofList, Reader.Piece.trimChars_text hwrites.operand]⟩

/-- The canonical tree of an equation lays out the difference of the sides or its negative. -/
theorem IsPolynomialEquation.exists_layout {text : String} {f g : MvPolynomial String ℚ} (h : IsPolynomialEquation text f g)
    {config : Config} {t : Tree} (ht : canonicalTree config text = .ok t) :
    ∃ p : Polynomial, p.Canonical ∧ t = p.toTree ∧ letterPolynomials.Holds t p.toMv ∧ (p.toMv = f - g ∨ p.toMv = -(f - g)) := by
  obtain ⟨form, hform, p, u, hp, hu, hvalue, htree⟩ := h.exists_form config
  rw [canonicalTree, hform] at ht
  obtain rfl := Except.ok.inj ht
  rw [htree]
  split
  · have hcanonical := Polynomial.canonical_positive hp
    exact ⟨_, hcanonical, rfl, holds_toTree hcanonical (Tree.holds_positive hu), hvalue ▸ p.toMv_positive⟩
  · exact ⟨p, hp, rfl, holds_toTree hp hu, .inl hvalue⟩

theorem eq_or_neglects_of_equations {config : Config} {a b : String} {f g f' g' : MvPolynomial String ℚ}
    (ha : IsPolynomialEquation a f g) (hb : IsPolynomialEquation b f' g') (h : equivalent config a b = true) :
    ∃ d d', (d = f - g ∨ d = -(f - g)) ∧ (d' = f' - g' ∨ d' = -(f' - g')) ∧ (d = d' ∨ config.Neglects (d - d')) := by
  have hjudge := judgeEquivalent_of_equivalent h
  have hequation : ∃ p q, Input.ofText a = .ok p ∧ Input.ofText b = .ok q ∧ (p.isEquation || q.isEquation) = true := by
    obtain ⟨p, l, r, -, -, hp, hequation, -⟩ := ha
    obtain ⟨q, -, -, -, -, hq, -⟩ := hb
    exact ⟨p, q, hp, hq, by simp [Input.isEquation, hequation]⟩
  obtain ⟨p, q, hp, hq, hequation⟩ := hequation
  simp only [judgeEquivalent, hp, hq, Answer.ok_bind, hequation, if_true] at hjudge
  obtain ⟨t, ht, hjudge⟩ := Answer.bind_eq_ok_iff.mp hjudge
  obtain ⟨u, hu, hjudge⟩ := Answer.bind_eq_ok_iff.mp hjudge
  obtain ⟨p, hp, rfl, hpholds, hpvalue⟩ := ha.exists_layout ht
  obtain ⟨q, hq, rfl, hqholds, hqvalue⟩ := hb.exists_layout hu
  refine ⟨p.toMv, q.toMv, hpvalue, hqvalue, ?_⟩
  split at hjudge
  · rename_i hsame
    exact .inl (hpholds.1.unique (hsame ▸ hqholds.1))
  · obtain ⟨text, htext, hjudge⟩ := Answer.bind_eq_ok_iff.mp hjudge
    obtain ⟨text', htext', hjudge⟩ := Answer.bind_eq_ok_iff.mp hjudge
    obtain ⟨d, hd, hnegligible⟩ := Answer.bind_eq_ok_iff.mp hjudge
    obtain ⟨hread, htrimmed⟩ := ofText_text_toTree hp hpholds htext
    obtain ⟨hread', htrimmed'⟩ := ofText_text_toTree hq hqholds htext'
    have hholds := holds_readDifference htrimmed htrimmed' hread hread' hpholds.1 hqholds.1 hd
    exact (eq_zero_or_neglects hholds hnegligible).imp_left sub_eq_zero.mp

/-- Equivalent polynomial inputs agree up to what the probes overlook: two expressions denote one polynomial, or their
difference is neglected; of two equations the differences of the sides are equal or opposite, or the difference of
these, each up to its sign, is neglected. -/
theorem equivalent_sound {config : Config} {a b : String} (h : equivalent config a b = true) :
    (∀ f g, IsPolynomialExpression a f → IsPolynomialExpression b g → f = g ∨ config.Neglects (f - g)) ∧
      ∀ f g f' g', IsPolynomialEquation a f g → IsPolynomialEquation b f' g' →
        (f - g = f' - g' ∨ f - g = -(f' - g')) ∨
          ∃ d d', (d = f - g ∨ d = -(f - g)) ∧ (d' = f' - g' ∨ d' = -(f' - g')) ∧ config.Neglects (d - d') := by
  refine ⟨fun f g ha hb => eq_or_neglects_of_expressions ha hb h, fun f g f' g' ha hb => ?_⟩
  obtain ⟨d, d', hd, hd', heq | hneglects⟩ := eq_or_neglects_of_equations ha hb h
  · subst heq
    left
    rcases hd with rfl | rfl <;> rcases hd' with h | h
    · exact .inl h
    · exact .inr h
    · exact .inr (neg_eq_iff_eq_neg.mp h)
    · exact .inl (neg_injective h)
  · exact .inr ⟨d, d', hd, hd', hneglects⟩

open MvPolynomial (C X)

/-- The product of `x` less each of the standard probes, as a learner may write it. -/
theorem isPolynomialExpression_roots : ∃ f, IsPolynomialExpression "x(x-1)(x-2)(x+1)(x-5)(x-10)" f ∧ f ≠ C 0 := by
  have hx : (Tree.symbol "x").Denotes (X "x") := .symbol (by decide)
  have hless (c : ℚ) : (Tree.paren (.apply .sub [.symbol "x", .const c])).Denotes (X "x" - C c) := .paren (.sub hx (.const c))
  have hmore : (Tree.paren (.apply .add [.symbol "x", .const 1])).Denotes (X "x" + C 1) := .paren (.add hx (.const 1))
  refine ⟨X "x" * (X "x" - C 1) * (X "x" - C 2) * (X "x" + C 1) * (X "x" - C 5) * (X "x" - C 10), ?_, fun h => ?_⟩
  · refine ⟨⟨"x(x-1)(x-2)(x+1)(x-5)(x-10)", none⟩, _, by decide +kernel, rfl, ?_,
      .mul (.mul (.mul (.mul (.mul hx (hless 1)) (hless 2)) hmore) (hless 5)) (hless 10)⟩
    decide +kernel
  · have hvalue := congrArg (MvPolynomial.eval fun _ => 3) h
    norm_num at hvalue

theorem isPolynomialExpression_zero : IsPolynomialExpression "0" (C 0) :=
  ⟨⟨"0", none⟩, .const 0, rfl, rfl, rfl, .const 0⟩

/-- Every standard probe is a root of the product. -/
theorem equivalent_roots : equivalent .standard "x(x-1)(x-2)(x+1)(x-5)(x-10)" "0" = true := by
  decide +kernel

/-- The product is no zero polynomial, but it counts as equivalent to zero. -/
theorem equivalent_zero_of_roots :
    ∃ f, IsPolynomialExpression "x(x-1)(x-2)(x+1)(x-5)(x-10)" f ∧ IsPolynomialExpression "0" (C 0) ∧ f ≠ C 0 ∧
      equivalent .standard "x(x-1)(x-2)(x+1)(x-5)(x-10)" "0" = true := by
  obtain ⟨f, hf, hne⟩ := isPolynomialExpression_roots
  exact ⟨f, hf, isPolynomialExpression_zero, hne, equivalent_roots⟩

/-- The product is no zero polynomial, so it is one that the probes overlook. -/
theorem neglects_roots : ∃ f, IsPolynomialExpression "x(x-1)(x-2)(x+1)(x-5)(x-10)" f ∧ f ≠ C 0 ∧
    Config.standard.Neglects (f - C 0) := by
  obtain ⟨f, hf, hne⟩ := isPolynomialExpression_roots
  exact ⟨f, hf, hne, ((equivalent_sound equivalent_roots).1 f (C 0) hf isPolynomialExpression_zero).resolve_left hne⟩

/-! ### Equivalent inputs can be read -/

/-- The one text that an input stands for can be read. -/
def Input.IsReadable (p : Input) : Prop :=
  ∃ t, Tree.ofText (Canonical.source p) = .ok t

theorem Input.check_of_isReadable {text : String} {p : Input} (hp : ofText text = .ok p) (hexpression : p.equation = none)
    (h : p.IsReadable) : check text = .ok p := by
  obtain ⟨t, ht⟩ := h
  have hsource : Canonical.source p = p.trimmed := by rw [Canonical.source, hexpression]
  have hsides : p.sides = [p.trimmed] := by rw [sides, hexpression]
  rw [hsource] at ht
  rw [check, hp, Answer.ok_bind, hsides, readAll, ht]
  rfl

theorem Input.isReadable_of_canonicalTree {config : Config} {text : String} {p : Input} {t : Tree}
    (hp : ofText text = .ok p) (h : canonicalTree config text = .ok t) : p.IsReadable := by
  obtain ⟨form, hform, -⟩ := Answer.bind_eq_ok_iff.mp h
  rw [Canonical.Form.ofText, Canonical.Form.ofTextWith, hp, Answer.ok_bind] at hform
  exact (Answer.bind_eq_ok_iff.mp hform).imp fun _ hread => hread.1

/-- Of inputs that are judged equivalent each stands for a text that can be read, so an expression among them passes the
check. Of an equation the difference of the sides can be read, but the sides need not be. -/
theorem equivalent_isReadable {config : Config} {a b : String} (h : equivalent config a b = true) :
    ∃ p q, Input.ofText a = .ok p ∧ Input.ofText b = .ok q ∧ p.IsReadable ∧ q.IsReadable ∧
      (p.equation = none → Input.check a = .ok p) ∧ (q.equation = none → Input.check b = .ok q) := by
  obtain ⟨p, hp, hjudge⟩ := Answer.bind_eq_ok_iff.mp (judgeEquivalent_of_equivalent h)
  obtain ⟨q, hq, hjudge⟩ := Answer.bind_eq_ok_iff.mp hjudge
  suffices hreadable : p.IsReadable ∧ q.IsReadable from
    ⟨p, q, hp, hq, hreadable.1, hreadable.2, fun he => Input.check_of_isReadable hp he hreadable.1,
      fun he => Input.check_of_isReadable hq he hreadable.2⟩
  split at hjudge
  · obtain ⟨t, ht, hjudge⟩ := Answer.bind_eq_ok_iff.mp hjudge
    obtain ⟨u, hu, -⟩ := Answer.bind_eq_ok_iff.mp hjudge
    exact ⟨Input.isReadable_of_canonicalTree hp ht, Input.isReadable_of_canonicalTree hq hu⟩
  · rename_i hexpressions
    obtain ⟨t, ht, hjudge⟩ := Answer.bind_eq_ok_iff.mp hjudge
    obtain ⟨u, hu, -⟩ := Answer.bind_eq_ok_iff.mp hjudge
    have hsource {p : Input} (hp : ¬p.isEquation = true) : Canonical.source p = p.trimmed := by
      rw [Input.isEquation, Option.not_isSome_iff_eq_none] at hp
      rw [Canonical.source, hp]
    rw [Bool.or_eq_true, not_or] at hexpressions
    exact ⟨⟨t, (congrArg Tree.ofText (hsource hexpressions.1)).trans ht⟩,
      u, (congrArg Tree.ofText (hsource hexpressions.2)).trans hu⟩

theorem equivalent_unbalanced : equivalent .standard "x) + (x = y" "2x = y" = true := by
  decide +kernel

/-- An equation whose sides cannot be read is equivalent to one whose sides can: the parentheses match once the sides are
written as a difference. -/
theorem equivalent_of_unbalanced_sides :
    equivalent .standard "x) + (x = y" "2x = y" = true ∧ (Input.check "x) + (x = y").toOption = none :=
  ⟨equivalent_unbalanced, by decide +kernel⟩

/-- The unbalanced equation stands for a text that can be read, like every input that counts as equivalent to another. -/
theorem isReadable_unbalanced :
    ∃ p, Input.ofText "x) + (x = y" = .ok p ∧ p.IsReadable := by
  obtain ⟨p, -, hp, -, hreadable, -⟩ := equivalent_isReadable equivalent_unbalanced
  exact ⟨p, hp, hreadable⟩

end AlgebraTutor
