import AlgebraTutor.Proofs.Equivalence
import AlgebraTutor.Proofs.Input

/-!
# Inputs that can be compared

Equivalence swallows every failure, so it is not reflexive: what cannot be read is not even equivalent to itself. An input
that is equivalent to anything at all is also equivalent to itself, and to every text that differs from it only in the
blanks around it.
-/

namespace AlgebraTutor

/-! ### The blanks around an input -/

theorem Text.trimChars_eq_of_trim_eq {a b : String} (htrim : Text.trim a = Text.trim b) :
    Text.trimChars a.toList = Text.trimChars b.toList := by
  simpa only [Text.trim, String.toList_ofList] using congrArg String.toList htrim

theorem Text.trim_trim (text : String) : Text.trim (Text.trim text) = Text.trim text := by
  rw [Text.trim, Text.trim, String.toList_ofList, Text.trimChars_trimChars]

theorem Input.ofText_of_trim_eq {a b : String} {p : Input} (htrim : Text.trim a = Text.trim b) (ha : Input.ofText a = .ok p) :
    Input.ofText b = .ok p := by
  have hchars := Text.trimChars_eq_of_trim_eq htrim
  simp only [Input.ofText] at ha ⊢
  rw [← hchars]
  split_ifs at ha ⊢
  split at ha
  · exact ha
  · split_ifs at ha ⊢
    exact ha
  · simp at ha

/-- The canonical tree depends on a text only through the input that it is taken as. -/
theorem canonicalTree_of_ofText_eq {config : Config} {a b : String} {p : Input} (ha : Input.ofText a = .ok p)
    (hb : Input.ofText b = .ok p) : canonicalTree config a = canonicalTree config b := by
  rw [canonicalTree, canonicalTree, Canonical.Form.ofText, Canonical.Form.ofText, Canonical.Form.ofTextWith,
    Canonical.Form.ofTextWith, ha, hb]

theorem Canonical.source_of_not_isEquation {p : Input} (hp : ¬p.isEquation = true) : Canonical.source p = p.trimmed := by
  rw [Canonical.source, Option.not_isSome_iff_eq_none.mp hp]

/-! ### Comparable inputs -/

/-- The text can be read, and if it is an equation, it has a canonical tree. -/
def IsComparable (config : Config) (text : String) : Prop :=
  ∃ p, Input.ofText text = .ok p ∧ p.IsReadable ∧ (p.isEquation = true → ∃ t, canonicalTree config text = .ok t)

theorem areComparable_of_equivalent {config : Config} {a b : String} (h : equivalent config a b = true) :
    IsComparable config a ∧ IsComparable config b := by
  obtain ⟨p, hp, hjudge⟩ := Answer.bind_eq_ok_iff.mp (judgeEquivalent_of_equivalent h)
  obtain ⟨q, hq, hjudge⟩ := Answer.bind_eq_ok_iff.mp hjudge
  split at hjudge
  · obtain ⟨t, ht, hjudge⟩ := Answer.bind_eq_ok_iff.mp hjudge
    obtain ⟨u, hu, -⟩ := Answer.bind_eq_ok_iff.mp hjudge
    exact ⟨⟨p, hp, Input.isReadable_of_canonicalTree hp ht, fun _ => ⟨t, ht⟩⟩,
      ⟨q, hq, Input.isReadable_of_canonicalTree hq hu, fun _ => ⟨u, hu⟩⟩⟩
  · rename_i hexpressions
    obtain ⟨t, ht, hjudge⟩ := Answer.bind_eq_ok_iff.mp hjudge
    obtain ⟨u, hu, -⟩ := Answer.bind_eq_ok_iff.mp hjudge
    rw [Bool.or_eq_true, not_or] at hexpressions
    have hsource {p : Input} {text : String} {t : Tree} (hp : Input.ofText text = .ok p) (hexpression : ¬p.isEquation = true)
        (ht : Tree.ofText p.trimmed = .ok t) : IsComparable config text :=
      ⟨p, hp, ⟨t, (congrArg Tree.ofText (Canonical.source_of_not_isEquation hexpression)).trans ht⟩,
        fun hequation => absurd hequation hexpression⟩
    exact ⟨hsource hp hexpressions.1 ht, hsource hq hexpressions.2 hu⟩

theorem isComparable_of_equivalent {config : Config} {a b : String} (h : equivalent config a b = true) :
    IsComparable config a :=
  (areComparable_of_equivalent h).1

/-- An expression that passes the check can be compared, and so can an equation with a canonical tree. -/
theorem isComparable_of_check {config : Config} {text : String} {p : Input} (hcheck : Input.check text = .ok p)
    (hcanonical : p.isEquation = true → ∃ t, canonicalTree config text = .ok t) : IsComparable config text := by
  obtain ⟨hp, hsides⟩ := Input.of_check hcheck
  refine ⟨p, hp, ?_, hcanonical⟩
  cases hequation : p.equation with
  | some sides =>
    obtain ⟨t, ht⟩ := hcanonical (by rw [Input.isEquation, hequation]; rfl)
    exact Input.isReadable_of_canonicalTree hp ht
  | none =>
    obtain ⟨t, ht⟩ := hsides p.trimmed (by simp [Input.sides, hequation])
    exact ⟨t, by rw [Canonical.source, hequation]; exact ht⟩

/-- What can be compared is equivalent to every text that differs from it only in the blanks around it. -/
theorem IsComparable.equivalent {config : Config} {a b : String} (ha : IsComparable config a)
    (htrim : Text.trim a = Text.trim b) : equivalent config a b = true := by
  obtain ⟨p, hp, ⟨t, ht⟩, hcanonical⟩ := ha
  have hq := Input.ofText_of_trim_eq htrim hp
  refine equivalent_of_judgeEquivalent ?_
  rw [judgeEquivalent, hp, hq]
  simp only [Answer.ok_bind, Bool.or_self]
  by_cases hequation : p.isEquation = true
  · obtain ⟨u, hu⟩ := hcanonical hequation
    rw [if_pos hequation, ← canonicalTree_of_ofText_eq hp hq, hu]
    simp only [Answer.ok_bind, if_true]
    rfl
  · rw [if_neg hequation, ← Canonical.source_of_not_isEquation hequation, ht]
    simp only [Answer.ok_bind, if_true]
    rfl

/-! ### What passes the check -/

/-- An input has a canonical tree exactly if the text that it stands for can be read and simplified. -/
theorem exists_canonicalTree_iff {config : Config} {text : String} {p : Input} (hp : Input.ofText text = .ok p) :
    (∃ t, canonicalTree config text = .ok t) ↔ ∃ d base, Tree.ofText (Canonical.source p) = .ok d ∧ d.simplify = .ok base := by
  constructor
  · rintro ⟨t, ht⟩
    obtain ⟨form, hform, -⟩ := Answer.bind_eq_ok_iff.mp ht
    rw [Canonical.Form.ofText, Canonical.Form.ofTextWith, hp, Answer.ok_bind] at hform
    obtain ⟨d, hd, hform⟩ := Answer.bind_eq_ok_iff.mp hform
    obtain ⟨base, hbase, -⟩ := Answer.bind_eq_ok_iff.mp hform
    exact ⟨d, base, hd, hbase⟩
  · rintro ⟨d, base, hd, hbase⟩
    have hsimplify : Simplifier.standard.simplify d = .ok base := hbase
    rw [canonicalTree, Canonical.Form.ofText, Canonical.Form.ofTextWith, hp, Answer.ok_bind, hd, Answer.ok_bind, hsimplify]
    exact ⟨_, rfl⟩

theorem equivalent_self_iff {config : Config} {text : String} {p : Input} (hcheck : Input.check text = .ok p) :
    equivalent config text text = true ↔
      (p.isEquation = true → ∃ d base, Tree.ofText (Canonical.source p) = .ok d ∧ d.simplify = .ok base) := by
  obtain ⟨q, hq, hrest⟩ := Answer.bind_eq_ok_iff.mp hcheck
  obtain ⟨_, -, heq⟩ := Answer.bind_eq_ok_iff.mp hrest
  obtain rfl := Answer.pure_eq_ok_iff.mp heq
  rw [← exists_canonicalTree_iff hq]
  refine ⟨fun h hequation => ?_, fun h => (isComparable_of_check hcheck h).equivalent rfl⟩
  obtain ⟨q', hq', -, hcanonical⟩ := isComparable_of_equivalent h
  obtain rfl := Except.ok.inj (hq.symm.trans hq')
  exact hcanonical hequation

/-- The sides of an equation that passes the check, with no blanks around them, and the trees that they are read as. -/
structure Input.ReadSides (p : Input) (left right : String) (t u : Tree) : Prop where
  equation : p.equation = some (left, right)
  trimmedLeft : Text.trimChars left.toList = left.toList
  trimmedRight : Text.trimChars right.toList = right.toList
  readLeft : Tree.ofText left = .ok t
  readRight : Tree.ofText right = .ok u

theorem Input.exists_readSides {text left right : String} {p : Input} (hcheck : check text = .ok p)
    (hequation : p.equation = some (left, right)) : ∃ t u, p.ReadSides left right t u := by
  obtain ⟨hp, hsides⟩ := of_check hcheck
  obtain ⟨t, ht⟩ := hsides left (by simp [sides, hequation])
  obtain ⟨u, hu⟩ := hsides right (by simp [sides, hequation])
  obtain ⟨htrim, htrim'⟩ := (trimmed_of_ofText hp).2 left right hequation
  exact ⟨t, u, hequation, htrim, htrim', ht, hu⟩

section ReadSides

variable {p : Input} {left right : String} {t u : Tree}

theorem Input.ReadSides.source (h : p.ReadSides left right t u) : Canonical.source p = Canonical.differenceText left right := by
  rw [Canonical.source, h.equation]

/-- Between unmixed sides, the equation stands for the difference of their trees. -/
theorem Input.ReadSides.ofText_source (h : p.ReadSides left right t u) (hleft : IsUnmixed left) (hright : IsUnmixed right) :
    Tree.ofText (Canonical.source p) = .ok (.binary .sub t u) :=
  h.source ▸ hleft.ofText_difference hright h.trimmedLeft h.trimmedRight h.readLeft h.readRight

/-- Between polynomials, the equation stands for a difference that can be simplified. -/
theorem Input.ReadSides.exists_simplified (h : p.ReadSides left right t u) {f g : MvPolynomial String ℚ} (hf : t.Denotes f)
    (hg : u.Denotes g) : ∃ d base, Tree.ofText (Canonical.source p) = .ok d ∧ d.simplify = .ok base := by
  have hdifference : (Tree.binary .sub t u).Denotes (f - g) := Tree.interpretation.holds_binary_sub hf hg
  obtain ⟨base, hbase, hvalue⟩ := hdifference.exists_canonical
  have hread := Tree.ofText_differenceText h.trimmedLeft h.trimmedRight h.readLeft h.readRight hf.callFree hg.callFree
  exact ⟨_, _, h.source ▸ hread, Tree.simplify_of_denotes hbase (hvalue ▸ hdifference)⟩

end ReadSides

/-- An expression that passes the check is equivalent to itself. An equation that does is equivalent to itself exactly if the
difference of its sides can be read and simplified. Where the sides are unmixed, the difference is read as that of their
trees, and if these denote polynomials, it can be simplified. -/
theorem equivalent_self_of_check {config : Config} {text : String} {p : Input} (hcheck : Input.check text = .ok p) :
    (p.equation = none → equivalent config text text = true) ∧
      ∀ left right, p.equation = some (left, right) → ∃ t u, Tree.ofText left = .ok t ∧ Tree.ofText right = .ok u ∧
        (equivalent config text text = true ↔
          ∃ d base, Tree.ofText (Canonical.differenceText left right) = .ok d ∧ d.simplify = .ok base) ∧
        (IsUnmixed left → IsUnmixed right →
          (equivalent config text text = true ↔ ∃ base, (Tree.binary .sub t u).simplify = .ok base)) ∧
        ∀ f g, t.Denotes f → u.Denotes g → equivalent config text text = true := by
  have hiff := @equivalent_self_iff config _ _ hcheck
  refine ⟨fun hexpression => hiff.mpr fun h => by simp [Input.isEquation, hexpression] at h, fun left right hequation => ?_⟩
  simp only [Input.isEquation, hequation, Option.isSome_some, forall_const] at hiff
  obtain ⟨t, u, hsides⟩ := Input.exists_readSides hcheck hequation
  refine ⟨t, u, hsides.readLeft, hsides.readRight, hsides.source ▸ hiff, fun hleft hright => ?_, fun f g hf hg => ?_⟩
  · rw [hiff, hsides.ofText_source hleft hright]
    simp
  · exact hiff.mpr (hsides.exists_simplified hf hg)

open MvPolynomial (C X) in
/-- A line is equivalent to itself. -/
theorem equivalent_self_line : equivalent .standard "2x = y - 1" "2x = y - 1" = true := by
  have hx : (Tree.symbol "x").Denotes (X "x") := .symbol (by decide)
  have hy : (Tree.symbol "y").Denotes (X "y") := .symbol (by decide)
  have hcheck : Input.check "2x = y - 1" = .ok ⟨"2x = y - 1", some ("2x", "y - 1")⟩ := by decide +kernel
  obtain ⟨t, u, ht, hu, -, -, hpolynomial⟩ := (equivalent_self_of_check hcheck).2 _ _ rfl
  have hleft : Tree.ofText "2x" = .ok (.apply .mul [.const 2, .symbol "x"]) := by decide +kernel
  have hright : Tree.ofText "y - 1" = .ok (.apply .sub [.symbol "y", .const 1]) := by decide +kernel
  obtain rfl := Except.ok.inj (hleft.symm.trans ht)
  obtain rfl := Except.ok.inj (hright.symm.trans hu)
  exact hpolynomial _ _ (.mul (.const 2) hx) (.sub hy (.const 1))

/-- An equation with a quotient by zero passes the check, and so does the quotient; only the quotient is equivalent to
itself. -/
theorem equivalent_self_undefined :
    (Input.check "1/0 = 1").toOption.isSome = true ∧ equivalent .standard "1/0 = 1" "1/0 = 1" = false ∧
      equivalent .standard "1/0" "1/0" = true := by
  decide +kernel

end AlgebraTutor
