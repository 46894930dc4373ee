import Mathlib.Algebra.BigOperators.Group.List.Basic
import Mathlib.Data.List.Sort
import AlgebraTutor.Canonical.TermOrder
import AlgebraTutor.Proofs.Reader.Sum
import AlgebraTutor.Proofs.Tree.WellFormed

/-!
# Terms in order

The terms of a built tree are products or stand in parentheses, so they can be written in any order, and what is read back is
a chain of sums and differences of them. Whatever reads sums as a ring does gives the chain the value of the tree; and
sorting only permutes the terms.
-/

namespace AlgebraTutor

namespace Tree

/-! ### Sorting is a permutation -/

theorem map_of_keyTerms {terms : List Term} {keyed : List (TermKey × Term)} (h : keyTerms terms = .ok keyed) :
    keyed.map (·.2) = terms := by
  induction terms generalizing keyed with
  | nil =>
    obtain rfl := Except.ok.inj h
    rfl
  | cons term terms ih =>
    obtain ⟨key, -, h⟩ := Answer.bind_eq_ok_iff.mp h
    obtain ⟨keyed', hkeyed, heq⟩ := Answer.bind_eq_ok_iff.mp h
    obtain rfl := Answer.pure_eq_ok_iff.mp heq
    rw [List.map_cons, ih hkeyed]

/-- The first of two terms with their keys may come before the second one. -/
abbrev KeyedLe (a b : TermKey × Term) : Prop :=
  a.1.le b.1 = true

theorem insertKeyed_eq_orderedInsert : insertKeyed = List.orderedInsert KeyedLe := by
  funext a keyed
  induction keyed with
  | nil => rfl
  | cons b keyed ih => rw [insertKeyed, List.orderedInsert_cons, ih]

theorem foldr_insertKeyed (keyed : List (TermKey × Term)) : keyed.foldr insertKeyed [] = keyed.insertionSort KeyedLe := by
  rw [insertKeyed_eq_orderedInsert, List.insertionSort]

theorem sortTerms_perm {terms sorted : List Term} (h : sortTerms terms = .ok sorted) : sorted.Perm terms := by
  obtain ⟨keyed, hkeyed, heq⟩ := Answer.bind_eq_ok_iff.mp h
  obtain rfl := Answer.pure_eq_ok_iff.mp heq
  rw [foldr_insertKeyed]
  exact map_of_keyTerms hkeyed ▸ (List.perm_insertionSort KeyedLe keyed).map (·.2)

theorem termsFrom_ne_nil (sign : Sign) (t : Tree) : termsFrom sign t ≠ [] := by
  induction sign, t using termsFrom.induct with
  | case1 sign left right ihl _ | case2 sign left right ihl _ => simp [termsFrom, ihl]
  | case3 sign t ih => rwa [termsFrom]
  | case4 sign t => rw [termsFrom] <;> simp_all

/-! ### Trees of one term -/

/-- The tree is no sum, no difference and no sign. -/
structure IsSummand (t : Tree) : Prop where
  not_add : ∀ l r, t ≠ .apply .add [l, r]
  not_sub : ∀ l r, t ≠ .apply .sub [l, r]
  not_sign : ∀ u, t ≠ .apply .sub [u]

section Single

variable {t u : Tree}

theorem IsSummand.termsFrom (h : t.IsSummand) (sign : Sign) : Tree.termsFrom sign t = [(t, sign)] := by
  rw [Tree.termsFrom]
  · exact h.not_add
  · exact h.not_sub
  · exact h.not_sign

theorem isSummand_of_mem_termsFrom (sign : Sign) (t : Tree) : ∀ term ∈ termsFrom sign t, term.1.IsSummand := by
  induction sign, t using termsFrom.induct with
  | case1 sign left right ihl ihr | case2 sign left right ihl ihr =>
    rw [termsFrom]
    exact List.forall_mem_append.mpr ⟨ihl, ihr⟩
  | case3 sign t ih => rwa [termsFrom]
  | case4 sign t hadd hsub hsign =>
    have hsummand : t.IsSummand := ⟨hadd, hsub, hsign⟩
    simpa [hsummand.termsFrom sign] using hsummand

theorem isSummand_binary {op : Op} (hop : op = .mul ∨ op = .div) (t u : Tree) : (binary op t u).IsSummand := by
  rcases hop with rfl | rfl <;> exact ⟨nofun, nofun, nofun⟩

theorem isSummand_paren (t : Tree) : (paren t).IsSummand :=
  ⟨nofun, nofun, nofun⟩

theorem isSummand_const (value : Rat) : (const value).IsSummand :=
  ⟨nofun, nofun, nofun⟩

/-- What stands behind a sign, in parentheses where they are needed, is one term. -/
theorem isSummand_parenIf_sign (t : Tree) : (parenIf (t.precedence ≤ signPrecedence) t).IsSummand := by
  by_cases hprecedence : t.precedence ≤ signPrecedence
  · simpa [parenIf, hprecedence] using isSummand_paren t
  · rw [parenIf, if_neg (by simpa using hprecedence)]
    constructor <;> intros <;> rintro rfl <;> simp [precedence, Op.precedence, signPrecedence] at hprecedence

/-- What stands behind the sign of a well-formed tree is one term, and the sign is its negative. -/
theorem WellFormed.sign_operand (h : (Tree.apply .sub [t]).WellFormed) :
    t.negate = .apply .sub [t] ∧ ∀ sign, termsFrom sign t = [(t, sign)] := by
  obtain ⟨args, hargs, h⟩ := Answer.bind_eq_ok_iff.mp h
  obtain ⟨whole, hwhole, heq⟩ := Answer.bind_eq_ok_iff.mp h
  obtain rfl : whole = .apply .sub [t] := Answer.pure_eq_ok_iff.mp heq
  obtain ⟨u, rfl⟩ := List.length_eq_one_iff.mp (length_of_rebuildAll hargs)
  have hsign : u.negate = .apply .sub [t] := Except.ok.inj hwhole
  rcases negate_cases u with ⟨value, -, hvalue⟩ | hnegate
  · simp [hvalue] at hsign
  obtain rfl : parenIf (u.stripParens.precedence ≤ signPrecedence) u.stripParens = t := by simpa [hnegate] using hsign
  exact ⟨by rw [← hsign, Tree.negate, stripParens_parenIf (stripParens_stripParens u), Tree.negate],
    (isSummand_parenIf_sign _).termsFrom⟩

theorem length_termsFrom_add_pos (sign sign' : Sign) (t u : Tree) : 1 < (termsFrom sign t ++ termsFrom sign' u).length := by
  have ht := List.length_pos_iff.mpr (termsFrom_ne_nil sign t)
  have hu := List.length_pos_iff.mpr (termsFrom_ne_nil sign' u)
  rw [List.length_append]
  omega

/-- Ordering leaves a well-formed tree of one term alone. -/
theorem WellFormed.withOrderedTerms (h : t.WellFormed) {term : Tree} {sign : Sign} (hterms : t.terms = [(term, sign)]) :
    t.withOrderedTerms = .ok t := by
  have hseveral {s s' : Sign} {l r : Tree} (heq : termsFrom s l ++ termsFrom s' r = [(term, sign)]) : False := by
    have := length_termsFrom_add_pos s s' l r
    simp [heq] at this
  rw [Tree.withOrderedTerms, hterms]
  rw [terms, h.stripParens] at hterms
  unfold termsFrom at hterms
  split at hterms
  · exact absurd hterms hseveral
  · exact absurd hterms hseveral
  · obtain ⟨hnegate, hsingle⟩ := h.sign_operand
    obtain ⟨rfl, rfl⟩ : _ = term ∧ Sign.minus = sign := by simpa [hsingle, Sign.flip] using hterms
    simp [hnegate]
  · obtain ⟨rfl, rfl⟩ : t = term ∧ Sign.plus = sign := by simpa using hterms
    simp

/-- Ordering leaves a well-formed tree of one term alone, and reads any other one from its sorted terms. -/
theorem WellFormed.withOrderedTerms_eq_ok (h : t.WellFormed) (hu : t.withOrderedTerms = .ok u) :
    (u = t ∧ ∃ term, t.terms = [term]) ∨
      ∃ sorted cs, sortTerms t.terms = .ok sorted ∧ writeTerms sorted = .ok cs ∧ ofText (String.ofList cs) = .ok u := by
  by_cases hsingle : ∃ term sign, t.terms = [(term, sign)]
  · obtain ⟨term, sign, hterms⟩ := hsingle
    exact .inl ⟨(Except.ok.inj ((h.withOrderedTerms hterms).symm.trans hu)).symm, _, hterms⟩
  · rw [Tree.withOrderedTerms] at hu
    split at hu
    · rename_i term sign hterms
      exact absurd ⟨term, sign, hterms⟩ hsingle
    · obtain ⟨sorted, hsorted, hu⟩ := Answer.bind_eq_ok_iff.mp hu
      obtain ⟨cs, hcs, hread⟩ := Answer.bind_eq_ok_iff.mp hu
      exact .inr ⟨sorted, cs, hsorted, hcs, hread⟩

end Single

/-! ### Terms that can be written -/

theorem exists_chars_of_signedChars {term : Term} {found : List Char × Sign} (h : signedChars term = .ok found) :
    ∃ cs, term.1.chars = .ok cs :=
  (Answer.bind_eq_ok_iff.mp h).imp fun _ hcs => hcs.1

theorem exists_chars_of_laterTerms {terms : List Term} {later : List Char} (h : laterTerms terms = .ok later) :
    ∀ term ∈ terms, ∃ cs, term.1.chars = .ok cs := by
  induction terms generalizing later with
  | nil => simp
  | cons term terms ih =>
    obtain ⟨found, hfound, h⟩ := Answer.bind_eq_ok_iff.mp h
    obtain ⟨more, hmore, -⟩ := Answer.bind_eq_ok_iff.mp h
    exact List.forall_mem_cons.mpr ⟨exists_chars_of_signedChars hfound, ih hmore⟩

theorem exists_chars_of_writeTerms {terms : List Term} {cs : List Char} (h : writeTerms terms = .ok cs) :
    ∀ term ∈ terms, ∃ cs, term.1.chars = .ok cs := by
  cases terms with
  | nil => simp
  | cons term terms =>
    obtain ⟨found, hfound, h⟩ := Answer.bind_eq_ok_iff.mp h
    obtain ⟨later, hlater, -⟩ := Answer.bind_eq_ok_iff.mp h
    exact List.forall_mem_cons.mpr ⟨exists_chars_of_signedChars hfound, exists_chars_of_laterTerms hlater⟩

theorem exists_chars_of_mem_termsFrom {t : Tree} {cs : List Char} (h : t.chars = .ok cs) (sign : Sign) :
    ∀ term ∈ termsFrom sign t, ∃ ds, term.1.chars = .ok ds := by
  induction sign, t using termsFrom.induct generalizing cs with
  | case1 sign left right ihl ihr | case2 sign left right ihl ihr =>
    obtain ⟨_, -, _, hl, _, hr, -⟩ := (chars_operator_eq_ok_iff rfl).mp h
    rw [termsFrom]
    exact List.forall_mem_append.mpr ⟨ihl hl, ihr hr⟩
  | case3 sign t ih =>
    obtain ⟨_, ht, -⟩ := chars_sign_eq_ok_iff.mp h
    rw [termsFrom]
    exact ih ht
  | case4 sign t hadd hsub hsign =>
    rw [IsSummand.termsFrom ⟨hadd, hsub, hsign⟩]
    simpa using ⟨cs, h⟩

open Reader.Piece (Writes Means) in
/-- A tree that is built within its parentheses is read back without them. -/
theorem exists_writes_of_built {t : Tree} (h : t.stripParens.Built) {cs : List Char} (hcs : t.chars = .ok cs) :
    ∃ ps q, Writes ps q t ∧ Means ps q t.stripParens := by
  induction t using stripParens.induct generalizing cs with
  | case1 content ih =>
    obtain ⟨ds, hds, -⟩ := chars_paren_eq_ok_iff.mp hcs
    obtain ⟨ps, q, hwrites, hmeans⟩ := ih h hds
    refine ⟨_, q, hwrites.paren, fun text vars hknown => ?_⟩
    exact hmeans text vars fun p hp => hknown p (by simp [hp])
  | case2 t hplain =>
    rw [stripParens] at h ⊢
    · exact Reader.Piece.exists_writes (h.composed hcs)
    all_goals exact hplain

/-- The text of a tree that is built within its parentheses is read as the tree without them. -/
theorem ofText_of_text {t : Tree} (h : t.stripParens.Built) {s : String} (hs : t.text = .ok s) : ofText s = .ok t.stripParens := by
  obtain ⟨cs, hcs, -⟩ := Answer.map_eq_ok_iff.mp hs
  obtain ⟨ps, q, hwrites, hmeans⟩ := exists_writes_of_built h hcs
  obtain ⟨s', hs', hread⟩ := Reader.Piece.ofText_of_writes hwrites hmeans
  exact Except.ok.inj (hs'.symm.trans hs) ▸ hread

/-- What is no sum, no difference and no sign is a product or binds tighter. -/
theorem IsSummand.two_le_precedence {t : Tree} (hsummand : t.IsSummand) (h : t.stripParens.Built) : 2 ≤ t.precedence := by
  cases t with
  | const value =>
    rw [precedence]
    split <;> decide
  | symbol | paren => exact (by decide : 2 ≤ atomPrecedence)
  | apply op args =>
    have htakes : op.Takes args.length := takes_of_rebuild_eq_ok h.wellFormed List.mem_cons_self
    cases op with
    | add =>
      obtain ⟨l, r, rfl⟩ := List.length_eq_two.mp htakes
      exact absurd rfl (hsummand.not_add l r)
    | sub =>
      rcases htakes with hone | htwo
      · obtain ⟨u, rfl⟩ := List.length_eq_one_iff.mp hone
        exact absurd rfl (hsummand.not_sign u)
      · obtain ⟨l, r, rfl⟩ := List.length_eq_two.mp htwo
        exact absurd rfl (hsummand.not_sub l r)
    | mul | div | pow | call => simp [precedence, Op.precedence]

theorem built_of_mem_termsFrom {t : Tree} (h : t.stripParens.Built) (sign : Sign) :
    ∀ term ∈ termsFrom sign t, term.1.stripParens.Built := by
  induction sign, t using termsFrom.induct with
  | case1 sign left right ihl ihr | case2 sign left right ihl ihr =>
    have hargs := h.args.2
    rw [termsFrom]
    exact List.forall_mem_append.mpr ⟨ihl (hargs left (by simp)), ihr (hargs right (by simp))⟩
  | case3 sign t ih =>
    rw [termsFrom]
    exact ih (h.args.2 t (by simp))
  | case4 sign t hadd hsub hsign =>
    have hsummand : t.IsSummand := ⟨hadd, hsub, hsign⟩
    simpa [hsummand.termsFrom sign] using h

theorem IsSummand.writes {term : Term} (hsummand : term.1.IsSummand) (hbuilt : term.1.stripParens.Built) {cs : List Char}
    (hcs : term.1.chars = .ok cs) : Reader.Piece.WritesTerm term := by
  obtain ⟨ps, q, hwrites, hmeans⟩ := exists_writes_of_built hbuilt hcs
  refine ⟨ps, hwrites.chars, ⟨hwrites.operand, hwrites.closed, q, ?_, fun text vars hknown => ?_⟩⟩
  · have hproduct := (hwrites.level.2.2.1 (hsummand.two_le_precedence hbuilt)).term [] ⟨⟨by simp, by simp⟩, by simp⟩ (by simp)
    rwa [List.append_nil] at hproduct
  · exact ⟨_, hmeans text vars hknown, rfl⟩

/-- The terms of a built tree, written in any order, are read as a chain of sums and differences of them. -/
theorem exists_isSumOf_of_perm {t : Tree} (hbuilt : t.stripParens.Built) {terms : List Term}
    (hperm : terms.Perm (termsFrom .plus t)) {cs : List Char} (hcs : writeTerms terms = .ok cs) :
    ∃ w, ofText (String.ofList cs) = .ok w ∧ IsSumOf terms w := by
  have hchars := exists_chars_of_writeTerms hcs
  refine Reader.exists_ofText_writeTerms (fun term hterm => ?_) (fun heq => ?_) hcs
  · obtain ⟨ds, hds⟩ := hchars term hterm
    have hmem := hperm.subset hterm
    exact (isSummand_of_mem_termsFrom .plus t term hmem).writes (built_of_mem_termsFrom hbuilt .plus term hmem) hds
  · exact termsFrom_ne_nil .plus t (heq ▸ hperm).nil_eq.symm

end Tree

/-! ### Values -/

namespace Reading

open AlgebraTutor.Tree (Signs Carries IsSumOf)

variable {R : Type} [CommRing R] {D : Reading R} {t u w : Tree} {f g : R}

/-- The minus in front of a product is the sign of its value. -/
theorem holds_iff_of_signs (h : Signs t u) : D.Holds u f ↔ D.Holds t (-f) := by
  induction h generalizing f with
  | factor t => exact D.holds_negate
  | @product op t u hop _ r ih =>
    rcases hop with rfl | rfl
    · simp only [Tree.binary, D.mul_iff, D.holds_parenIf, D.holds_stripParens, ih]
      constructor
      · rintro ⟨g, k, hg, hk, rfl⟩
        exact ⟨-g, k, hg, hk, by rw [neg_mul]⟩
      · rintro ⟨g, k, hg, hk, hproduct⟩
        exact ⟨-g, k, by rwa [neg_neg], hk, by rw [neg_mul, hproduct, neg_neg]⟩
    · simp only [Tree.binary, D.div_iff, D.holds_parenIf, D.holds_stripParens, ih]
      constructor
      · rintro ⟨g, k, inverse, hg, hk, hinverse, rfl⟩
        exact ⟨-g, k, inverse, hg, hk, hinverse, by rw [neg_mul]⟩
      · rintro ⟨g, k, inverse, hg, hk, hinverse, hproduct⟩
        exact ⟨-g, k, inverse, by rwa [neg_neg], hk, hinverse, by rw [neg_mul, hproduct, neg_neg]⟩

variable (D) in
/-- With its sign, the term has the value. -/
def HoldsTerm (term : Term) (f : R) : Prop :=
  ∃ g, D.Holds term.1 g ∧ f = term.2.toInt • g

theorem HoldsTerm.of_carries {term : Term} (h : D.HoldsTerm term f) {sign : Sign} (hcarries : Carries term u sign) :
    ∃ g, D.Holds u g ∧ f = sign.toInt • g := by
  obtain ⟨g, hg, rfl⟩ := h
  rcases hcarries with ⟨rfl, rfl⟩ | ⟨hsigns, rfl⟩
  · exact ⟨g, D.holds_stripParens.mpr hg, rfl⟩
  · refine ⟨-g, (holds_iff_of_signs hsigns).mp (D.holds_stripParens.mpr hg), ?_⟩
    cases term.2 <;> simp [Sign.flip, Sign.toInt]

theorem HoldsTerm.exists_concat {terms : List Term} {term : Term} {fs : List R}
    (h : List.Forall₂ D.HoldsTerm (terms ++ [term]) fs) :
    ∃ gs f, fs = gs ++ [f] ∧ List.Forall₂ D.HoldsTerm terms gs ∧ D.HoldsTerm term f := by
  induction terms generalizing fs with
  | nil =>
    obtain ⟨f, rest, hterm, hnil, rfl⟩ := List.forall₂_cons_left_iff.mp h
    exact ⟨[], f, by rw [List.forall₂_nil_left_iff.mp hnil, List.nil_append], .nil, hterm⟩
  | cons first terms ih =>
    obtain ⟨g, rest, hfirst, hrest, rfl⟩ := List.forall₂_cons_left_iff.mp h
    obtain ⟨gs, f, rfl, hgs, hterm⟩ := ih hrest
    exact ⟨g :: gs, f, rfl, .cons hfirst hgs, hterm⟩

/-- A chain of sums and differences has the sum of the values of its terms. -/
theorem holds_of_isSumOf {terms : List Term} (h : IsSumOf terms w) {fs : List R}
    (hterms : List.Forall₂ D.HoldsTerm terms fs) : D.Holds w fs.sum := by
  induction h generalizing fs with
  | first hcarries =>
    obtain ⟨f, rest, hterm, hnil, rfl⟩ := List.forall₂_cons_left_iff.mp hterms
    obtain ⟨g, hg, rfl⟩ := hterm.of_carries hcarries
    simpa [List.forall₂_nil_left_iff.mp hnil, Sign.toInt] using hg
  | negative hcarries hsigns =>
    obtain ⟨f, rest, hterm, hnil, rfl⟩ := List.forall₂_cons_left_iff.mp hterms
    obtain ⟨g, hg, rfl⟩ := hterm.of_carries hcarries
    simpa [List.forall₂_nil_left_iff.mp hnil, Sign.toInt, holds_iff_of_signs hsigns] using hg
  | @next _ _ _ _ sign _ hcarries ih =>
    obtain ⟨gs, f, rfl, hgs, hterm⟩ := HoldsTerm.exists_concat hterms
    obtain ⟨g, hg, rfl⟩ := hterm.of_carries hcarries
    cases sign with
    | plus => simpa [Sign.toInt, Sign.op] using D.holds_binary_add (ih hgs) hg
    | minus => simpa [Sign.toInt, Sign.op, sub_eq_add_neg] using D.holds_binary_sub (ih hgs) hg

/-- The terms of a tree add up to its value. -/
theorem exists_holdsTerm (hf : D.Holds t f) (sign : Sign) :
    ∃ fs, List.Forall₂ D.HoldsTerm (Tree.termsFrom sign t) fs ∧ fs.sum = sign.toInt • f := by
  induction sign, t using Tree.termsFrom.induct generalizing f with
  | case1 sign left right ihl ihr =>
    obtain ⟨g, k, hg, hk, rfl⟩ := D.add_iff.mp hf
    obtain ⟨gs, hgs, hgsum⟩ := ihl hg
    obtain ⟨ks, hks, hksum⟩ := ihr hk
    exact ⟨gs ++ ks, List.rel_append hgs hks, by rw [List.sum_append, hgsum, hksum, zsmul_add]⟩
  | case2 sign left right ihl ihr =>
    obtain ⟨g, k, hg, hk, rfl⟩ := D.sub_iff.mp hf
    obtain ⟨gs, hgs, hgsum⟩ := ihl hg
    obtain ⟨ks, hks, hksum⟩ := ihr hk
    refine ⟨gs ++ ks, List.rel_append hgs hks, ?_⟩
    rw [List.sum_append, hgsum, hksum, zsmul_sub, sub_eq_add_neg]
    cases sign <;> simp [Sign.toInt, Sign.flip]
  | case3 sign t ih =>
    obtain ⟨fs, hfs, hsum⟩ := ih (D.neg_iff.mp hf)
    refine ⟨fs, hfs, ?_⟩
    rw [hsum]
    cases sign <;> simp [Sign.toInt, Sign.flip]
  | case4 sign t hadd hsub hsign =>
    rw [Tree.IsSummand.termsFrom ⟨hadd, hsub, hsign⟩]
    exact ⟨[sign.toInt • f], .cons ⟨f, hf, rfl⟩ .nil, by simp⟩

/-- A chain of sums and differences of the terms of a tree, in any order, has the value of the tree. -/
theorem holds_of_isSumOf_perm (hf : D.Holds t f) {terms : List Term} (hperm : terms.Perm (Tree.termsFrom .plus t))
    (hw : IsSumOf terms w) : D.Holds w f := by
  obtain ⟨fs, hfs, hsum⟩ := exists_holdsTerm hf .plus
  obtain ⟨gs, hgs, hgsum⟩ := List.perm_comp_forall₂ hperm hfs
  have hvalue := holds_of_isSumOf hw hgs
  rwa [hgsum.sum_eq, hsum, Sign.toInt, one_zsmul] at hvalue

/-- Putting the terms of a built tree in order keeps its value. -/
theorem holds_withOrderedTerms (hbuilt : t.Built) (hf : D.Holds t f) (h : t.withOrderedTerms = .ok u) : D.Holds u f := by
  rcases hbuilt.wellFormed.withOrderedTerms_eq_ok h with ⟨rfl, -⟩ | ⟨sorted, cs, hsorted, hcs, hread⟩
  · exact hf
  · rw [Tree.terms, hbuilt.stripParens] at hsorted
    have hperm := Tree.sortTerms_perm hsorted
    obtain ⟨w, hw, hsum⟩ := Tree.exists_isSumOf_of_perm (by rwa [hbuilt.stripParens]) hperm hcs
    obtain rfl := Except.ok.inj (hw.symm.trans hread)
    exact holds_of_isSumOf_perm hf hperm hsum

end Reading

end AlgebraTutor
