import AlgebraTutor.Proofs.Pattern.Plain
import AlgebraTutor.Proofs.Pattern.Simplified
import AlgebraTutor.Proofs.Reader.RoundTrip

/-!
# The detectors and the simplified form

If no detector finds anything in a sum that is written plainly, then the sum is written as the tutor would write it, up to the
order of its terms. Plainly means without what no detector looks for: the constants among the terms are left to the learner, and
so are parentheses, exponents of zero and one, and the order of factors.
-/

namespace AlgebraTutor

open AlgebraTutor.Tree (IsFinished HaveLikenesses constantLikeness likeness)

/-! ### Terms of different monomials -/

namespace Polynomial

variable {l : List (Monomial × Rat)} {terms : List Term}

theorem Presents.isConstant {term : Term} {c : Rat} (h : Presents term ([], c)) : term.1.isConstant = true := by
  rcases h with rfl | ⟨-, rfl⟩ <;> exact Tree.isConstant_ofRat _

/-- The number among the terms of a list is one among those of the tree. -/
theorem countP_le (h : List.Forall₂ Presents terms l) :
    l.countP (fun s => s.1.isEmpty) ≤ terms.countP fun term => term.1.isConstant := by
  induction h with
  | nil => simp
  | @cons term s terms l hterm _ ih =>
    obtain ⟨m, c⟩ := s
    rw [List.countP_cons, List.countP_cons]
    by_cases hempty : m.isEmpty = true
    · obtain rfl := List.isEmpty_iff.mp hempty
      rw [if_pos hterm.isConstant]
      exact Nat.add_le_add ih (by simp)
    · rw [if_neg hempty]
      exact Nat.le_add_right_of_le ih

theorem monomialWord_true (m : Monomial) : monomialWord true m = "-" ++ monomialWord false m := by
  apply String.toList_injective
  simp [monomialWord]

/-- Terms that are not alike have different monomials, if one of them at most is a number, and none begins with a sign that
tells it apart from another. -/
theorem nodup_of_keys {keys : List String} (h : List.Forall₂ IsKey l keys) (hunknowns : ∀ s ∈ l, ∀ f ∈ s.1, Tree.IsUnknown f.1)
    (hcounts : ∀ key, key ≠ constantLikeness → keys.count key ≤ 1) (hnumbers : l.countP (fun s => s.1.isEmpty) ≤ 1)
    (hsigns : ∀ key ∈ keys, "-" ++ key ∉ keys) : (l.map (·.1)).Nodup := by
  induction h with
  | nil => exact List.nodup_nil
  | @cons s key l keys hkey hkeys ih =>
    obtain ⟨hs, hunknowns⟩ := List.forall_mem_cons.mp hunknowns
    rw [List.map_cons, List.nodup_cons]
    refine ⟨fun hmem => ?_, ih hunknowns (fun k hk => ?_) ?_ fun k hk hminus => ?_⟩
    · obtain ⟨r, hr, hsame⟩ := List.mem_map.mp hmem
      by_cases hempty : s.1 = []
      · have hlater : 0 < l.countP (fun s => s.1.isEmpty) := List.countP_pos_iff.mpr ⟨r, hr, by rw [hsame, hempty]; rfl⟩
        rw [List.countP_cons, if_pos (by rw [hempty]; rfl)] at hnumbers
        omega
      · obtain ⟨key', hmem, hkey'⟩ := exists_of_forall₂ hkeys hr
        rw [IsKey, hsame, if_neg hempty] at hkey'
        rw [IsKey, if_neg hempty] at hkey
        obtain ⟨minus, rfl⟩ := hkey
        obtain ⟨minus', rfl⟩ := hkey'
        by_cases hminus : minus = minus'
        · subst hminus
          have hcount := hcounts _ (monomialWord_ne minus hempty hs)
          rw [List.count_cons_self] at hcount
          have hlater := List.count_pos_iff.mpr hmem
          omega
        · cases minus with
          | true =>
            obtain rfl : minus' = false := by simpa using Ne.symm hminus
            exact hsigns _ (List.mem_cons_of_mem _ hmem) (monomialWord_true s.1 ▸ List.mem_cons_self)
          | false =>
            obtain rfl : minus' = true := by simpa using Ne.symm hminus
            exact hsigns _ List.mem_cons_self (List.mem_cons_of_mem _ (monomialWord_true s.1 ▸ hmem))
    · exact (List.count_le_count_cons).trans (hcounts k hk)
    · exact List.Sublist.countP_le (List.sublist_cons_self s l) |>.trans hnumbers
    · exact hsigns k (List.mem_cons_of_mem _ hk) (List.mem_cons_of_mem _ hminus)

/-- The terms in the order of their monomials are a canonical list. -/
theorem IsReduced.exists_canonical (h : IsReduced l) : ∃ p : Polynomial, p.Canonical ∧ p.Perm l := by
  classical
  let order (s t : Monomial × Rat) : Prop := toLex t.1.exponents ≤ toLex s.1.exponents
  have : Std.Total order := ⟨fun s t => le_total _ _⟩
  have : IsTrans (Monomial × Rat) order := ⟨fun _ _ _ hst htu => htu.trans hst⟩
  have hperm := List.perm_insertionSort order l
  have hsorted := h.perm hperm
  refine ⟨l.insertionSort order, ⟨hsorted.monomials, fun s hs => (hsorted.writable s hs).nonzero, ?_⟩, hperm⟩
  refine ((List.pairwise_insertionSort order l).and (List.pairwise_map.mp hsorted.distinct)).imp_of_mem ?_
  rintro s t hs ht ⟨hle, hne⟩
  refine lt_of_le_of_ne hle fun heq => hne ?_
  exact (Monomial.exponents_injective (hsorted.monomials t ht) (hsorted.monomials s hs) (toLex.injective heq)).symm

end Polynomial

/-! ### Sides -/

namespace Tree

/-- The sum is written plainly: nothing goes unnoticed at a node, one term at most is a number, and no term is told apart from
another by its sign only. -/
structure IsPlain (t : Tree) : Prop extends HasPlainNodes t where
  numbers : (t.terms.countP fun term => term.1.isConstant) ≤ 1
  likenesses : ∀ a ∈ t.terms, ∀ b ∈ t.terms, ∀ key, likeness a.1 = .ok key → likeness b.1 ≠ .ok ("-" ++ key)

theorem likenesses_of_keys {terms : List Term} (keys : List String) (h : HaveLikenesses terms keys)
    (hkeys : ∀ key ∈ keys, "-" ++ key ∉ keys) :
    ∀ a ∈ terms, ∀ b ∈ terms, ∀ key, likeness a.1 = .ok key → likeness b.1 ≠ .ok ("-" ++ key) := by
  intro a ha b hb key halike hblike
  obtain ⟨k, hk, hkey⟩ := exists_of_forall₂ h ha
  obtain ⟨k', hk', hkey'⟩ := exists_of_forall₂ h hb
  obtain rfl := Except.ok.inj (hkey.symm.trans halike)
  obtain rfl := Except.ok.inj (hkey'.symm.trans hblike)
  exact hkeys k hk hk'

end Tree

/-- The text is read as the tree of a polynomial of integers, letters, sums, products and powers with natural exponents. -/
structure IsIntegerPolynomial (side : String) (t : Tree) : Prop where
  integers : Reader.holdsIntegers side = true
  read : Tree.ofText side = .ok t
  denotes : ∃ f, t.Denotes f
  undivided : ∀ args, .apply .div args ∉ t.nodes

/-- A side that is written plainly, and in which nothing is found, is in simplified form. -/
theorem isSimplifiedSide_of_silent {side : String} {t : Tree} (h : IsIntegerPolynomial side t) (hplain : t.IsPlain)
    (hsilent : t.patterns = .ok [] ∧ t.hasOpenWork = .ok false) : isSimplifiedSide side = .ok true := by
  obtain ⟨hquiet, hlike⟩ := Tree.patterns_and_hasOpenWork_iff.mp hsilent
  obtain ⟨f, hf⟩ := h.denotes
  have hcomposed := Reader.composed_of_ofText h.read h.integers
  have hfinished : t.IsFinished := ⟨hcomposed, h.undivided, hplain.toHasPlainNodes, hquiet⟩
  obtain ⟨l, rfl, hterms⟩ := hfinished.exists_layout hf
  by_cases hempty : l = []
  · subst hempty
    rw [isSimplifiedSide, h.read]
    rfl
  · have hshort := Polynomial.hasShortIntegers_layout.mp hcomposed.hasShortIntegers
    have hwritable : ∀ s ∈ l, Polynomial.IsWritable s := fun s hs => ⟨(hterms s hs).nonzero, (hterms s hs).unknowns, hshort s hs⟩
    have hmonomials : ∀ s ∈ l, s.1.Canonical := fun s hs => (hterms s hs).monomial
    have hpresents := Polynomial.forall₂_presents_layout (Polynomial.isLettered_of_isWritable hwritable) hempty
    obtain ⟨keys, hkeys, hcounts⟩ := Tree.likeTerms_eq_nil_iff.mp hlike
    obtain ⟨keys', hkeys', hfits⟩ := Polynomial.exists_keys hpresents hwritable hmonomials
    obtain rfl : keys' = keys := List.right_unique_forall₂' Tree.rightUnique_likeness hkeys' hkeys
    have hsigns : ∀ key ∈ keys', "-" ++ key ∉ keys' := fun key hkey hminus => by
      obtain ⟨a, ha, halike⟩ := exists_of_forall₂ hkeys.flip hkey
      obtain ⟨b, hb, hblike⟩ := exists_of_forall₂ hkeys.flip hminus
      exact hplain.likenesses a ha b hb key halike hblike
    have hreduced : Polynomial.IsReduced l := ⟨hwritable, hmonomials,
      Polynomial.nodup_of_keys hfits (fun s hs => (hterms s hs).unknowns) hcounts
        ((Polynomial.countP_le hpresents).trans hplain.numbers) hsigns⟩
    obtain ⟨p, hp, hperm⟩ := hreduced.exists_canonical
    exact hreduced.isSimplifiedSide hempty hp hperm h.read

/-! ### Texts -/

theorem Analysis.silent_of_findings {flag : Bool} {sides : List String} (h : findingsOf flag sides = .ok ([], false)) :
    flag = false ∧ ∀ side ∈ sides, ∀ t, Tree.ofText side = .ok t → t.patterns = .ok [] ∧ t.hasOpenWork = .ok false := by
  induction sides generalizing flag with
  | nil => exact ⟨by simpa [findingsOf] using h, by simp⟩
  | cons side sides ih =>
    obtain ⟨t, ht, hread⟩ := Answer.bind_eq_ok_iff.mp h
    obtain ⟨patterns, hpatterns, hfound⟩ := Answer.bind_eq_ok_iff.mp hread
    have hlater {flag' : Bool} (h : (findingsOf flag' sides >>= fun r => pure (patterns ++ r.1, r.2)) = .ok ([], false)) :
        patterns = [] ∧ findingsOf flag' sides = .ok ([], false) := by
      obtain ⟨⟨later, last⟩, hsides, heq⟩ := Answer.bind_eq_ok_iff.mp h
      obtain ⟨hnil, rfl⟩ := Prod.mk.inj (Answer.pure_eq_ok_iff.mp heq)
      obtain ⟨hfirst, rfl⟩ := List.append_eq_nil_iff.mp hnil
      exact ⟨hfirst, hsides⟩
    cases flag with
    | true => exact absurd (ih (hlater hfound).2).1 (by decide)
    | false =>
      obtain ⟨flag', hwork, hrest⟩ := Answer.bind_eq_ok_iff.mp hfound
      obtain ⟨rfl, hsides⟩ := hlater hrest
      obtain ⟨rfl, hsilent⟩ := ih hsides
      refine ⟨rfl, List.forall_mem_cons.mpr ⟨fun u hu => ?_, hsilent⟩⟩
      obtain rfl := Except.ok.inj (ht.symm.trans hu)
      exact ⟨hpatterns, hwork⟩

/-- If nothing is found in a polynomial or in the sides of an equation, and they are written plainly, then they are in simplified
form. -/
theorem matchesSimplifiedForm_of_isSimplified {text : String} {p : Input} (hinput : Input.ofText text = .ok p)
    (hsides : ∀ side ∈ p.sides, ∃ t, IsIntegerPolynomial side t ∧ t.IsPlain) (h : (Analysis.ofText text).isSimplified = true) :
    matchesSimplifiedForm text = true := by
  have hfindings : Analysis.findingsOf false p.sides = .ok ([], false) := by
    rw [Analysis.ofText] at h
    cases hanalysis : Analysis.ofText? text with
    | error failure => simp [hanalysis, Analysis.empty] at h
    | ok a =>
      simp only [hanalysis] at h
      simp only [Analysis.ofText?, hinput, Answer.ok_bind] at hanalysis
      obtain ⟨⟨patterns, flag⟩, hfindings, heq⟩ := Answer.bind_eq_ok_iff.mp hanalysis
      obtain rfl := Answer.pure_eq_ok_iff.mp heq
      simp only [Analysis.ofFindings, Bool.and_eq_true, List.isEmpty_iff, Bool.not_eq_true'] at h
      rw [hfindings, h.1, h.2]
  have hsimplified : areSimplifiedSides p.sides = .ok true := areSimplifiedSides_iff.mpr fun side hside => by
    obtain ⟨t, ht, hplain⟩ := hsides side hside
    exact isSimplifiedSide_of_silent ht hplain ((Analysis.silent_of_findings hfindings).2 side hside t ht.read)
  rw [matchesSimplifiedForm, hinput, Answer.ok_bind, hsimplified]

theorem isIntegerPolynomial_of_read {side : String} {t : Tree} (hintegers : Reader.holdsIntegers side = true)
    (hread : Tree.ofText side = .ok t) (hpolynomial : t.polynomial?.isSome = true) (hundivided : ∀ args, .apply .div args ∉ t.nodes) :
    IsIntegerPolynomial side t := by
  obtain ⟨p, hp⟩ := Option.isSome_iff_exists.mp hpolynomial
  exact ⟨hintegers, hread, ⟨_, (Tree.polynomial?_eq_some_iff.mp hp).2⟩, hundivided⟩

/-- The difference `3 - 2xy^2`. -/
theorem Tree.isPlain_difference :
    (Tree.apply .sub [.const 3, .apply .mul [.apply .mul [.const 2, .symbol "x"], .apply .pow [.symbol "y", .const 2]]]).IsPlain where
  unparenthesized := by simp [nodes, nodesAll]
  exponents base n h := by
    obtain ⟨-, rfl⟩ : base = symbol "y" ∧ n = 2 := by simpa [nodes, nodesAll] using h
    decide
  factors l r h := by
    have hproducts : (l = .apply .mul [.const 2, .symbol "x"] ∧ r = .apply .pow [.symbol "y", .const 2]) ∨
        (l = .const 2 ∧ r = .symbol "x") := by simpa [nodes, nodesAll] using h
    rcases hproducts with ⟨rfl, rfl⟩ | ⟨rfl, rfl⟩ <;> decide
  signs op l r hop h := by
    have hdifference : op = .sub ∧ l = .const 3 ∧
        r = .apply .mul [.apply .mul [.const 2, .symbol "x"], .apply .pow [.symbol "y", .const 2]] := by
      rcases hop with rfl | rfl
      · simp [nodes, nodesAll] at h
      · simpa [nodes, nodesAll] using h
    obtain ⟨rfl, rfl, rfl⟩ := hdifference
    decide
  numbers := by decide
  likenesses := likenesses_of_keys ["1", "x*y^2"] (.cons rfl (.cons rfl .nil)) (by decide)

theorem Tree.isPlain_minus : (Tree.apply .sub [.symbol "x"]).IsPlain where
  unparenthesized := by simp [nodes, nodesAll]
  exponents base n h := by simp [nodes, nodesAll] at h
  factors l r h := by simp [nodes, nodesAll] at h
  signs op l r hop h := by simp [nodes, nodesAll] at h
  numbers := by decide
  likenesses := likenesses_of_keys ["x"] (.cons rfl .nil) (by decide)

/-- The equation `3 - 2xy^2 = -x`. -/
theorem matchesSimplifiedForm_of_isSimplified_equation : (Analysis.ofText "3 - 2x*y^2 = -x").isSimplified = true ∧
    matchesSimplifiedForm "3 - 2x*y^2 = -x" = true := by
  have hsimplified : (Analysis.ofText "3 - 2x*y^2 = -x").isSimplified = true := by decide +kernel
  have hinput : Input.ofText "3 - 2x*y^2 = -x" = .ok ⟨"3 - 2x*y^2 = -x", some ("3 - 2x*y^2", "-x")⟩ := by decide +kernel
  refine ⟨hsimplified, matchesSimplifiedForm_of_isSimplified hinput ?_ hsimplified⟩
  rw [Input.sides, List.forall_mem_cons, List.forall_mem_singleton]
  constructor
  · exact ⟨_, isIntegerPolynomial_of_read (by decide +kernel) (by decide +kernel) (by decide +kernel)
      (by simp [Tree.nodes, Tree.nodesAll]), Tree.isPlain_difference⟩
  · exact ⟨_, isIntegerPolynomial_of_read (by decide +kernel) (by decide +kernel) (by decide +kernel)
      (by simp [Tree.nodes, Tree.nodesAll]), Tree.isPlain_minus⟩

/-- The text is a polynomial with integer coefficients in which nothing is found, though it is not in simplified form. -/
structure IsOverlooked (text : String) : Prop where
  input : Input.ofText text = .ok ⟨text, none⟩
  polynomial : ∃ t, IsIntegerPolynomial text t
  silent : (Analysis.ofText text).isSimplified = true
  unsimplified : matchesSimplifiedForm text = false

theorem isOverlooked_of_read {text : String} {t : Tree} (hundivided : ∀ args, .apply .div args ∉ t.nodes)
    (h : Input.ofText text = .ok ⟨text, none⟩ ∧ Reader.holdsIntegers text = true ∧ Tree.ofText text = .ok t ∧
      t.polynomial?.isSome = true ∧ (Analysis.ofText text).isSimplified = true ∧ matchesSimplifiedForm text = false) :
    IsOverlooked text := by
  obtain ⟨hinput, hintegers, hread, hpolynomial, hsilent, hunsimplified⟩ := h
  exact ⟨hinput, ⟨t, isIntegerPolynomial_of_read hintegers hread hpolynomial hundivided⟩, hsilent, hunsimplified⟩

/-- Work that no detector looks for: numbers apart in a sum, a power of a sum, an exponent of one, a factor twice, factors and a
number out of order, a sign behind another. -/
theorem isOverlooked_unfinished : IsOverlooked "3x + 2 + 1" ∧ IsOverlooked "(x + 1)^2" ∧ IsOverlooked "x^1" ∧ IsOverlooked "x*x" ∧
    IsOverlooked "y*x" ∧ IsOverlooked "x*2" ∧ IsOverlooked "x + -2y" := by
  refine ⟨?_, ?_, ?_, ?_, ?_, ?_, ?_⟩
  · exact isOverlooked_of_read (t := .apply .add [.apply .add [.apply .mul [.const 3, .symbol "x"], .const 2], .const 1])
      (by simp [Tree.nodes, Tree.nodesAll]) (by decide +kernel)
  · exact isOverlooked_of_read (t := .apply .pow [.paren (.apply .add [.symbol "x", .const 1]), .const 2])
      (by simp [Tree.nodes, Tree.nodesAll]) (by decide +kernel)
  · exact isOverlooked_of_read (t := .apply .pow [.symbol "x", .const 1]) (by simp [Tree.nodes, Tree.nodesAll]) (by decide +kernel)
  · exact isOverlooked_of_read (t := .apply .mul [.symbol "x", .symbol "x"]) (by simp [Tree.nodes, Tree.nodesAll])
      (by decide +kernel)
  · exact isOverlooked_of_read (t := .apply .mul [.symbol "y", .symbol "x"]) (by simp [Tree.nodes, Tree.nodesAll])
      (by decide +kernel)
  · exact isOverlooked_of_read (t := .apply .mul [.symbol "x", .const 2]) (by simp [Tree.nodes, Tree.nodesAll]) (by decide +kernel)
  · exact isOverlooked_of_read (t := .apply .add [.symbol "x", .apply .mul [.const (-2), .symbol "y"]])
      (by simp [Tree.nodes, Tree.nodesAll]) (by decide +kernel)

end AlgebraTutor
