import AlgebraTutor.Pattern.Analysis
import AlgebraTutor.Proofs.Pattern.Plain
import AlgebraTutor.Step.Hint

/-!
# Open work is always found

Beside its patterns a tree has a flag for arithmetic and unit factors that are left over. The flag says nothing of its own: in a
tree without patterns it is not set. Unfinished arithmetic is the very thing that a pattern reports, and a factor of one is
reported as an idle number unless the product is one of numbers. Such a product is unfinished arithmetic, since it is written
with a star and its value without one.
-/

namespace AlgebraTutor

namespace Tree

variable {t l r : Tree} {cs : List Char}

/-! ### Finished arithmetic -/

/-- Arithmetic on numbers in which nothing is found is written like its value. -/
theorem exists_text_of_constantArithmeticAt (h : t.constantArithmeticAt = .ok []) (hnumbers : t.isNumberOperation = true) :
    ∃ s v, t.text = .ok s ∧ t.simplify = .ok v ∧ v.text = .ok s := by
  rw [constantArithmeticAt, hnumbers, Bool.not_true, if_neg Bool.false_ne_true] at h
  obtain ⟨before, simple, after, hbefore, hsimple, hafter, hsame⟩ := exists_of_rewriting h
  split_ifs at hsame with heq
  · exact ⟨before, simple, hbefore, hsimple, heq ▸ hafter⟩
  · simp at hsame

theorem isUnfinishedArithmetic_of_constantArithmeticAt (h : t.constantArithmeticAt = .ok []) :
    t.isUnfinishedArithmetic = .ok false := by
  unfold isUnfinishedArithmetic
  split_ifs with hnumbers
  · rfl
  · obtain ⟨s, v, hs, hsimplify, hv⟩ := exists_text_of_constantArithmeticAt h (by simpa using hnumbers)
    simp [hs, hsimplify, hv]

/-! ### Products of numbers -/

theorem star_not_mem_chars_ofRat {c : Rat} (h : (ofRat c).chars = .ok cs) : '*' ∉ cs := by
  have hinteger {n : Int} {ds : List Char} (hds : (const n).chars = .ok ds) : '*' ∉ ds :=
    not_mem_chars_integer hds (by decide) (by decide)
  unfold ofRat at h
  split_ifs at h with hden
  · exact hinteger h
  · rw [binary_over rfl (two_le_precedence_const _) c.den, chars_operator_eq_ok_iff rfl] at h
    obtain ⟨-, -, ds, hnum, es, hden, rfl⟩ := h
    simp [hinteger hnum, separator, @hinteger c.den es (by exact_mod_cast hden)]

theorem toTree_const_rat (c : Rat) : (Polynomial.const c).toTree = ofRat c := by
  by_cases hc : c = 0
  · subst hc
    rfl
  · rw [Polynomial.const, if_neg hc]
    rfl

theorem denotes_of_stripParens {c : Rat} (h : t.stripParens = .const c) : t.Denotes (MvPolynomial.C (c : ℚ)) := by
  induction t using stripParens.induct with
  | case1 content ih => exact .paren (ih h)
  | case2 t hparen =>
    obtain rfl : t = .const c := by simpa [stripParens] using h
    exact .const c

theorem isImplicitProduct_of_stripParens {implicit : Bool} {b : Rat} (hr : r.stripParens = .const b)
    (himplicit : isImplicitProduct l r = .ok implicit) : implicit = false := by
  have hright : r.followsNumber = false := by
    cases r <;> first | rfl | simp [stripParens] at hr
  cases l with
  | const a => cases r with
    | apply op args => simp [stripParens] at hr
    | _ => simpa [isImplicitProduct, hright] using himplicit.symm
  | _ => simpa [isImplicitProduct] using himplicit.symm

/-- A product of numbers is never finished. -/
theorem constantArithmeticAt_mul_ne_nil {a b : Rat} (hl : l.stripParens = .const a) (hr : r.stripParens = .const b) :
    (apply .mul [l, r]).constantArithmeticAt ≠ .ok [] := by
  have hdenotes : (apply .mul [l, r]).Denotes (Polynomial.const (a * b)).toMv := by
    rw [Polynomial.toMv_const, map_mul]
    exact .mul (denotes_of_stripParens hl) (denotes_of_stripParens hr)
  have hsimplify := simplify_of_denotes (Polynomial.canonical_const (a * b)) hdenotes
  have hnumbers : (apply .mul [l, r]).isNumberOperation = true := by simp [isNumberOperation, isNumber, hl, hr]
  intro hfound
  obtain ⟨s, v, hs, hv, hvalue⟩ := exists_text_of_constantArithmeticAt hfound hnumbers
  obtain rfl := Except.ok.inj (hsimplify.symm.trans hv)
  obtain ⟨cs, hcs, rfl⟩ := Answer.map_eq_ok_iff.mp hs
  obtain ⟨ds, hds, heq⟩ := Answer.map_eq_ok_iff.mp hvalue
  obtain rfl := String.ofList_inj.mp heq
  obtain ⟨implicit, himplicit, ds, -, es, -, rfl⟩ := (chars_operator_eq_ok_iff rfl).mp hcs
  obtain rfl := isImplicitProduct_of_stripParens hr himplicit
  rw [toTree_const_rat] at hds
  exact star_not_mem_chars_ofRat hds (by simp [separator])

/-! ### Nodes -/

theorem hasUnitFactor_of_quiet (harithmetic : t.constantArithmeticAt = .ok []) (hcoefficient : t.coefficientNormalizationAt = .ok []) :
    t.hasUnitFactor = false := by
  refine Bool.eq_false_iff.mpr fun hunit => ?_
  rcases coefficientNormalizationAt_eq_nil_iff.mp hcoefficient with hnumbers | hidle
  · obtain ⟨l, r, rfl⟩ : ∃ l r, t = .apply .mul [l, r] := by
      unfold hasUnitFactor at hunit
      split at hunit
      · exact ⟨_, _, rfl⟩
      · simp at hunit
    have hnumber {u : Tree} (hu : u.isNumber = true) : ∃ c, u.stripParens = .const c := by
      unfold isNumber at hu
      split at hu
      · exact ⟨_, ‹_›⟩
      · simp at hu
    obtain ⟨hl, hr⟩ : l.isNumber = true ∧ r.isNumber = true := by simpa [isNumberOperation] using hnumbers
    obtain ⟨a, ha⟩ := hnumber hl
    obtain ⟨b, hb⟩ := hnumber hr
    exact constantArithmeticAt_mul_ne_nil ha hb harithmetic
  · rw [hasIdleNumber_of_hasUnitFactor hunit] at hidle
    exact Bool.noConfusion hidle

/-- In a tree without patterns nothing is left over. -/
theorem hasOpenWork_of_patterns (h : t.patterns = .ok []) : t.hasOpenWork = .ok false := by
  obtain ⟨harithmetic, -, -, hcoefficients⟩ := patterns_eq_nil_iff.mp h
  rw [openArithmetic, collectAt_eq_nil_iff] at harithmetic
  rw [idleNumbers, collectAt_eq_nil_iff] at hcoefficients
  exact someUnfinished_eq_false_iff.mpr fun n hn =>
    ⟨isUnfinishedArithmetic_of_constantArithmeticAt (harithmetic n hn),
      hasUnitFactor_of_quiet (harithmetic n hn) (hcoefficients n hn)⟩

end Tree

/-! ### Texts -/

namespace Analysis

/-- What is left over in one of several texts is found there. -/
theorem patterns_ne_nil_of_findingsOf {flag : Bool} {sides : List String} {patterns : List Pattern}
    (h : findingsOf flag sides = .ok (patterns, true)) : flag = true ∨ patterns ≠ [] := by
  induction sides generalizing flag patterns with
  | nil => exact .inl (congrArg Prod.snd (Except.ok.inj h))
  | cons side sides ih =>
    obtain ⟨t, -, hread⟩ := Answer.bind_eq_ok_iff.mp h
    obtain ⟨found, hfound, hrest⟩ := Answer.bind_eq_ok_iff.mp hread
    cases flag with
    | true => exact .inl rfl
    | false =>
      obtain ⟨flag, hflag, hsides⟩ := Answer.bind_eq_ok_iff.mp hrest
      obtain ⟨⟨later, last⟩, hlater, heq⟩ := Answer.bind_eq_ok_iff.mp hsides
      obtain ⟨rfl, rfl⟩ := Prod.mk.inj (Answer.pure_eq_ok_iff.mp heq)
      refine .inr fun hnil => ?_
      obtain ⟨rfl, rfl⟩ := List.append_eq_nil_iff.mp hnil
      obtain rfl : flag = false := Except.ok.inj (hflag.symm.trans (Tree.hasOpenWork_of_patterns hfound))
      exact (ih hlater).elim Bool.false_ne_true fun hne => hne rfl

variable {text : String} {a : Analysis}

theorem patterns_ne_nil_of_hasOpenWork (h : ofText? text = .ok a) (hwork : a.hasOpenWork = true) : a.patterns ≠ [] := by
  obtain ⟨p, -, hfindings⟩ := Answer.bind_eq_ok_iff.mp h
  obtain ⟨⟨patterns, flag⟩, hfound, heq⟩ := Answer.bind_eq_ok_iff.mp hfindings
  obtain rfl := Answer.pure_eq_ok_iff.mp heq
  obtain rfl : flag = true := hwork
  exact (patterns_ne_nil_of_findingsOf hfound).resolve_left Bool.false_ne_true

/-- An analysis that did not fail finds what keeps a text from being simplified. -/
theorem isSimplified_eq_isEmpty (h : ofText? text = .ok a) : a.isSimplified = a.patterns.isEmpty := by
  have hwork := patterns_ne_nil_of_hasOpenWork h
  obtain ⟨p, -, hfindings⟩ := Answer.bind_eq_ok_iff.mp h
  obtain ⟨⟨patterns, flag⟩, -, heq⟩ := Answer.bind_eq_ok_iff.mp hfindings
  obtain rfl := Answer.pure_eq_ok_iff.mp heq
  cases flag with
  | false => simp [ofFindings]
  | true => simpa [ofFindings] using hwork rfl

/-- Where an analysis does not fail, a text that is not simplified has a pattern to show for it. -/
theorem patterns_ofText_ne_nil_iff (hsimplified : (ofText text).isSimplified = false) :
    (ofText text).patterns ≠ [] ↔ ∃ a, ofText? text = .ok a := by
  rw [ofText] at hsimplified ⊢
  cases hanalysis : ofText? text with
  | error failure => simp [empty]
  | ok a =>
    rw [hanalysis] at hsimplified
    rw [isSimplified_eq_isEmpty hanalysis] at hsimplified
    simpa using hsimplified

/-- A text is simplified if its analysis does not fail and nothing is found. -/
theorem isSimplified_ofText_iff : (ofText text).isSimplified = true ↔ ∃ a, ofText? text = .ok a ∧ a.patterns = [] := by
  rw [ofText]
  cases hanalysis : ofText? text with
  | error failure => simp [empty]
  | ok a => simp [isSimplified_eq_isEmpty hanalysis]

theorem patterns_ofText_ne_nil_of_hasOpenWork (hwork : (ofText text).hasOpenWork = true) : (ofText text).patterns ≠ [] := by
  rw [ofText] at hwork ⊢
  cases hanalysis : ofText? text with
  | error failure => simp [hanalysis, empty] at hwork
  | ok a => exact patterns_ne_nil_of_hasOpenWork hanalysis (by simpa only [hanalysis] using hwork)

theorem hints_ofText_eq (text : String) : (ofText text).hints = (ofText text).feedback ++
    if (ofText text).isSimplified then
      ["This expression appears to be fully simplified. Check if it matches the expected form."] else [] := by
  have hwork : ((ofText text).patterns.isEmpty && (ofText text).hasOpenWork) = false := by
    rw [Bool.and_eq_false_imp, List.isEmpty_iff]
    exact fun hnil => Bool.eq_false_iff.mpr fun hwork => patterns_ofText_ne_nil_of_hasOpenWork hwork hnil
  rw [hints, hwork, if_neg Bool.false_ne_true, List.nil_append]

/-- An expression that is not simplified is explained by its patterns alone. -/
theorem hints_ofText (hsimplified : (ofText text).isSimplified = false) : (ofText text).hints = (ofText text).feedback := by
  rw [hints_ofText_eq, hsimplified, if_neg Bool.false_ne_true, List.append_nil]

/-- What is hinted at a pattern says what can be done with it. -/
theorem exists_of_mem_feedback {hint : String} (h : hint ∈ a.feedback) : ∃ rest, hint = "You can " ++ rest := by
  obtain ⟨pattern, -, rfl⟩ := List.mem_map.mp h
  obtain ⟨rest, hrest⟩ : ∃ rest, pattern.kind.introduction = "You can " ++ rest := by
    cases pattern.kind
    · exact ⟨"simplify the arithmetic: ", rfl⟩
    · exact ⟨"combine like terms: ", rfl⟩
    · exact ⟨"use the distributive property: ", rfl⟩
    · exact ⟨"simplify the coefficient: ", rfl⟩
  exact ⟨rest ++ pattern.suggestion, by rw [hrest, String.append_assoc]⟩

/-- What is left over is always explained: a text with open work has a pattern, a text is simplified exactly if its analysis does
not fail and finds nothing, and no learner is left with the hint that names no place. -/
theorem hasOpenWork_explained (text : String) :
    ((ofText text).hasOpenWork = true → (ofText text).patterns ≠ []) ∧
    ((ofText text).isSimplified = true ↔ ∃ a, ofText? text = .ok a ∧ a.patterns = []) ∧
    "Look for opportunities to simplify coefficients or clean up the expression." ∉ (ofText text).hints := by
  refine ⟨patterns_ofText_ne_nil_of_hasOpenWork, isSimplified_ofText_iff, fun hhint => ?_⟩
  rw [hints_ofText_eq, List.mem_append] at hhint
  rcases hhint with hfeedback | hdone
  · obtain ⟨rest, hrest⟩ := exists_of_mem_feedback hfeedback
    have hfirst := congrArg (fun s => s.toList.head?) hrest
    simp at hfirst
  · split_ifs at hdone <;> simp at hdone

/-- A product of one in an equation. -/
theorem hasOpenWork_unit_product : (ofText "1*x = 3*(4)").hasOpenWork = true ∧ (ofText "1*x = 3*(4)").patterns ≠ [] := by
  have hwork : (ofText "1*x = 3*(4)").hasOpenWork = true := by decide +kernel
  exact ⟨hwork, (hasOpenWork_explained "1*x = 3*(4)").1 hwork⟩

/-- An analysis of texts that can be read fails at the tree of one of them. -/
theorem exists_failure_of_findingsOf {flag : Bool} {sides : List String} {failure : Failure}
    (hread : ∀ side ∈ sides, ∃ t, Tree.ofText side = .ok t) (h : findingsOf flag sides = .error failure) :
    ∃ side ∈ sides, ∃ t, Tree.ofText side = .ok t ∧ (t.patterns = .error failure ∨ t.hasOpenWork = .error failure) := by
  induction sides generalizing flag with
  | nil => simp [findingsOf] at h
  | cons side sides ih =>
    obtain ⟨⟨t, ht⟩, hsides⟩ := List.forall_mem_cons.mp hread
    have hlater {flag' : Bool} {found : List Pattern}
        (h : (findingsOf flag' sides >>= fun r => pure (found ++ r.1, r.2)) = .error failure) :
        ∃ side ∈ sides, ∃ t, Tree.ofText side = .ok t ∧ (t.patterns = .error failure ∨ t.hasOpenWork = .error failure) := by
      rcases Answer.bind_eq_error_iff.mp h with hfail | ⟨_, _, hpure⟩
      · exact ih hsides hfail
      · simp [pure, Except.pure] at hpure
    rw [findingsOf, ht, Answer.ok_bind] at h
    rcases Answer.bind_eq_error_iff.mp h with hpatterns | ⟨found, -, hrest⟩
    · exact ⟨side, by simp, t, ht, .inl hpatterns⟩
    · cases flag with
      | true =>
        obtain ⟨side', hmem, hfails⟩ := hlater hrest
        exact ⟨side', List.mem_cons_of_mem _ hmem, hfails⟩
      | false =>
        rcases Answer.bind_eq_error_iff.mp hrest with hwork | ⟨flag, -, hrest⟩
        · exact ⟨side, by simp, t, ht, .inr hwork⟩
        · obtain ⟨side', hmem, hfails⟩ := hlater hrest
          exact ⟨side', List.mem_cons_of_mem _ hmem, hfails⟩

end Analysis

end AlgebraTutor
