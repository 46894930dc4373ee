import AlgebraTutor.Proofs.Canonical.Polynomial
import AlgebraTutor.Proofs.Reader.Difference
import AlgebraTutor.Proofs.Reader.Unknowns

/-!
# Canonical equations

An equation between polynomials is read as the difference of its sides, and its canonical tree lays out that polynomial or
its negative, whichever has no minus in front. So two such equations share their canonical tree exactly if the differences
of their sides are equal or opposite, and the sides may be swapped.
-/

namespace AlgebraTutor

open AlgebraTutor.Tree (letterPolynomials simplify_of_denotes holds_toTree)

/-! ### The sides of an input -/

namespace Input

theorem trimmed_of_ofText {text : String} {p : Input} (h : ofText text = .ok p) :
    Text.trimChars p.trimmed.toList = p.trimmed.toList ∧
      ∀ l r, p.equation = some (l, r) → Text.trimChars l.toList = l.toList ∧ Text.trimChars r.toList = r.toList := by
  simp only [ofText] at h
  split_ifs at h with hempty hdoubled
  split at h
  · obtain rfl := Except.ok.inj h
    exact ⟨by rw [String.toList_ofList, Text.trimChars_trimChars], nofun⟩
  · rename_i left right _
    split_ifs at h with hside
    obtain rfl := Except.ok.inj h
    refine ⟨by rw [String.toList_ofList, Text.trimChars_trimChars], fun l r hequation => ?_⟩
    obtain ⟨rfl, rfl⟩ := Prod.mk.inj (Option.some.inj hequation)
    simp only [String.toList_ofList, Text.trimChars_trimChars, and_self]
  · simp at h

end Input

theorem Tree.Denotes.callFree {t : Tree} {f : MvPolynomial String ℚ} (h : t.Denotes f) : t.CallFree := by
  induction h with
  | const | symbol => simp [CallFree, nodes]
  | paren _ ih => exact callFree_paren.mpr ih
  | neg _ ih => exact callFree_apply rfl (by simpa using ih)
  | add _ _ iht ihu | sub _ _ iht ihu | mul _ _ iht ihu | div _ _ _ iht ihu | pow _ _ _ iht ihu =>
    exact callFree_apply rfl (by simp [iht, ihu])

/-! ### Equations between polynomials -/

/-- The text is an equation, and its sides are read as trees that denote the polynomials. -/
def IsPolynomialEquation (text : String) (f g : MvPolynomial String ℚ) : Prop :=
  ∃ p l r t u, Input.ofText text = .ok p ∧ p.equation = some (l, r) ∧ Tree.ofText l = .ok t ∧ Tree.ofText r = .ok u ∧
    t.Denotes f ∧ u.Denotes g

/-- What is read from a text stands for the polynomial that it denotes. -/
theorem Tree.Denotes.holds_of_ofText {text : String} {t : Tree} {f : MvPolynomial String ℚ} (ht : t.Denotes f)
    (hread : Tree.ofText text = .ok t) : letterPolynomials.Holds t f :=
  ⟨ht, fun _ hv => Reader.isAlpha_of_mem_unknowns_ofText hread hv⟩

/-- The first tree of an equation lays out the difference of the sides. -/
theorem IsPolynomialEquation.exists_base {text : String} {f g : MvPolynomial String ℚ} (h : IsPolynomialEquation text f g)
    (config : Config) : ∃ (p : Polynomial) (t : Tree), p.Canonical ∧ letterPolynomials.Holds t p.toMv ∧ p.toMv = f - g ∧
      Canonical.Form.ofText config text = .ok (.ofBase .standard config true p.toTree) := by
  obtain ⟨input, l, r, t, u, hinput, hequation, hl, hr, ht, hu⟩ := h
  obtain ⟨hltrimmed, hrtrimmed⟩ := (Input.trimmed_of_ofText hinput).2 l r hequation
  have hread := Tree.ofText_differenceText hltrimmed hrtrimmed hl hr ht.callFree hu.callFree
  have hholds := (Tree.interpretation.holds_binary_sub ht hu : (Tree.binary .sub t u).Denotes (f - g)).holds_of_ofText hread
  obtain ⟨p, hp, hvalue⟩ := hholds.1.exists_canonical
  rw [← hvalue] at hholds
  refine ⟨p, _, hp, hholds, hvalue, ?_⟩
  have hsource : Canonical.source input = Canonical.differenceText l r := by rw [Canonical.source, hequation]
  have hequational : input.isEquation = true := by rw [Input.isEquation, hequation]; rfl
  have hsimplify : Simplifier.standard.simplify (.binary .sub t u) = .ok p.toTree := simplify_of_denotes hp hholds.1
  simp [Canonical.Form.ofText, Canonical.Form.ofTextWith, hinput, hsource, hread, hsimplify, hequational]

/-- The polynomial that a canonical tree lays out: that of the difference of the sides, or its negative. -/
theorem IsPolynomialEquation.exists_form {text : String} {f g : MvPolynomial String ℚ} (h : IsPolynomialEquation text f g)
    (config : Config) : ∃ form, Canonical.Form.ofText config text = .ok form ∧
      ∃ (p : Polynomial) (t : Tree), p.Canonical ∧ letterPolynomials.Holds t p.toMv ∧ p.toMv = f - g ∧
        form.tree = if form.degraded = false then p.positive.toTree else p.toTree := by
  obtain ⟨p, t, hp, ht, hvalue, hform⟩ := h.exists_base config
  exact ⟨_, hform, p, t, hp, ht, hvalue, by simpa using Canonical.tree_ofBase_polynomial hp ht config true⟩

/-- Layouts of canonical lists are equal only if the lists are. -/
theorem Polynomial.toTree_injective {p q : Polynomial} (hp : p.Canonical) (hq : q.Canonical) (hpu : Unreserved p)
    (hqu : Unreserved q) (h : p.toTree = q.toTree) : p = q :=
  toMv_injective hp hq ((denotes_toTree hpu).unique (h ▸ denotes_toTree hqu))

/-- Canonical equations between polynomials are decided exactly: unless a stage fails, two of them have one canonical tree
if and only if the differences of their sides are equal or opposite, and swapping the sides changes nothing. -/
theorem canonicalTree_eq_iff {a b : String} {f g f' g' : MvPolynomial String ℚ} (ha : IsPolynomialEquation a f g)
    (hb : IsPolynomialEquation b f' g') (config : Config) :
    ∃ form form', Canonical.Form.ofText config a = .ok form ∧ Canonical.Form.ofText config b = .ok form' ∧
      (form.degraded = false → form'.degraded = false →
        (canonicalTree config a = canonicalTree config b ↔ f - g = f' - g' ∨ f - g = -(f' - g')) ∧
          (f = g' → g = f' → canonicalTree config a = canonicalTree config b)) := by
  obtain ⟨form, hform, p, t, hp, ht, hpvalue, htree⟩ := ha.exists_form config
  obtain ⟨form', hform', q, u, hq, hu, hqvalue, htree'⟩ := hb.exists_form config
  refine ⟨form, form', hform, hform', fun hdegraded hdegraded' => ?_⟩
  rw [if_pos hdegraded] at htree
  rw [if_pos hdegraded'] at htree'
  have hiff : canonicalTree config a = canonicalTree config b ↔ f - g = f' - g' ∨ f - g = -(f' - g') := by
    rw [← hpvalue, ← hqvalue, ← Polynomial.positive_eq_iff hp hq, canonicalTree, hform, canonicalTree, hform', Answer.ok_bind,
      Answer.ok_bind, htree, htree']
    refine ⟨fun h => ?_, fun h => by rw [h]⟩
    have hpc := Polynomial.canonical_positive hp
    have hqc := Polynomial.canonical_positive hq
    exact Polynomial.toTree_injective hpc hqc (Polynomial.unreserved_of_denotes hpc (Tree.holds_positive ht).1)
      (Polynomial.unreserved_of_denotes hqc (Tree.holds_positive hu).1) (Except.ok.inj h)
  refine ⟨hiff, fun hleft hright => hiff.mpr (.inr ?_)⟩
  rw [hleft, hright, neg_sub]

open MvPolynomial (C X) in
/-- A quadratic equation, and the same multiplied out with its sides swapped. -/
theorem canonicalTree_quadratic :
    canonicalTree .standard "x(x - 1) = 2" = canonicalTree .standard "2 = x^2 - x" := by
  have hx : (Tree.symbol "x").Denotes (X "x") := .symbol (by decide)
  have htwo : (Tree.const 2).Denotes (C ((2 : ℕ) : ℚ)) := .const 2
  have hfactored : IsPolynomialEquation "x(x - 1) = 2" (X "x" * (X "x" - C 1)) (C 2) :=
    ⟨⟨"x(x - 1) = 2", some ("x(x - 1)", "2")⟩, _, _,
      .apply .mul [.symbol "x", .paren (.apply .sub [.symbol "x", .const 1])], .const 2, by decide +kernel, rfl,
      by decide +kernel, by decide +kernel, .mul hx (.paren (.sub hx (.const 1))), .const 2⟩
  have hspread : IsPolynomialEquation "2 = x^2 - x" (C 2) (X "x" ^ 2 - X "x") :=
    ⟨⟨"2 = x^2 - x", some ("2", "x^2 - x")⟩, _, _, .const 2,
      .apply .sub [.apply .pow [.symbol "x", .const 2], .symbol "x"], by decide +kernel, rfl,
      by decide +kernel, by decide +kernel, .const 2, .sub (.pow hx htwo (by decide)) hx⟩
  obtain ⟨form, form', hform, hform', hiff⟩ := canonicalTree_eq_iff hfactored hspread .standard
  have hdegraded : form.degraded = false := by
    have hwhole : (Canonical.Form.ofText .standard "x(x - 1) = 2").map (·.degraded) = .ok false := by decide +kernel
    rw [hform] at hwhole
    exact Except.ok.inj hwhole
  have hdegraded' : form'.degraded = false := by
    have hwhole : (Canonical.Form.ofText .standard "2 = x^2 - x").map (·.degraded) = .ok false := by decide +kernel
    rw [hform'] at hwhole
    exact Except.ok.inj hwhole
  refine (hiff hdegraded hdegraded').1.mpr (.inr ?_)
  rw [map_one]
  ring

end AlgebraTutor
