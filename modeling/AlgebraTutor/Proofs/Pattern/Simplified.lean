import Mathlib.Data.List.Perm.Basic
import AlgebraTutor.Pattern.Analysis
import AlgebraTutor.Proofs.Canonical.Polynomial
import AlgebraTutor.Proofs.Pattern.Layout
import AlgebraTutor.Proofs.Pattern.LikeTerms
import AlgebraTutor.Proofs.Pattern.Likeness

/-!
# Simplified texts

A sum of terms of different monomials, in whatever order, is read as the layout of these terms. No pattern is found in such a
layout, and simplifying it answers the same terms in the order of the tutor, so the text has the arrangement of its simplified
form. The terms that simplifying a polynomial answers are such terms.
-/

namespace AlgebraTutor

/-! ### Simplified sides -/

/-- A side that is read is simplified if it has the arrangement of its simplified tree, or, where it holds a fraction, that of
the decimal that this is written as. -/
theorem isSimplifiedSide_iff {side : String} {t : Tree} (hread : Tree.ofText side = .ok t) :
    isSimplifiedSide side = .ok true ↔ ∃ written simple answer, t.chars = .ok written ∧ t.simplify = .ok simple ∧
      simple.chars = .ok answer ∧ (Text.sameArrangement written answer = true ∨ t.hasFraction = true ∧
        ∃ decimal other, simple.withDecimals = .ok decimal ∧ decimal.chars = .ok other ∧
          Text.sameArrangement written other = true) := by
  rw [isSimplifiedSide, hread, Answer.ok_bind]
  constructor
  · intro h
    obtain ⟨written, hwritten, h⟩ := Answer.bind_eq_ok_iff.mp h
    obtain ⟨simple, hsimple, h⟩ := Answer.bind_eq_ok_iff.mp h
    obtain ⟨answer, hanswer, h⟩ := Answer.bind_eq_ok_iff.mp h
    refine ⟨written, simple, answer, hwritten, hsimple, hanswer, ?_⟩
    split_ifs at h with hsame hinteger
    · exact .inl hsame
    · simp at h
    · obtain ⟨decimal, hdecimal, h⟩ := Answer.bind_eq_ok_iff.mp h
      obtain ⟨other, hother, h⟩ := Answer.bind_eq_ok_iff.mp h
      exact .inr ⟨by simpa using hinteger, decimal, other, hdecimal, hother, Answer.pure_eq_ok_iff.mp h⟩
  · rintro ⟨written, simple, answer, hwritten, hsimple, hanswer, h⟩
    simp only [hwritten, hsimple, hanswer, Answer.ok_bind]
    by_cases hsame : Text.sameArrangement written answer = true
    · rw [if_pos hsame]
      rfl
    · obtain ⟨hfraction, decimal, other, hdecimal, hother, hsame'⟩ := h.resolve_left hsame
      simp [hsame, hfraction, hdecimal, hother, hsame']

theorem areSimplifiedSides_iff {sides : List String} :
    areSimplifiedSides sides = .ok true ↔ ∀ side ∈ sides, isSimplifiedSide side = .ok true := by
  induction sides with
  | nil => simp [areSimplifiedSides]
  | cons side sides ih =>
    rw [areSimplifiedSides, Answer.bind_eq_ok_iff, List.forall_mem_cons, ← ih]
    constructor
    · rintro ⟨_ | _, hside, hrest⟩
      · simp at hrest
      · exact ⟨hside, hrest⟩
    · exact fun ⟨hside, hrest⟩ => ⟨true, hside, hrest⟩

theorem matchesSimplifiedForm_iff {text : String} {p : Input} (hinput : Input.ofText text = .ok p) :
    matchesSimplifiedForm text = true ↔ ∀ side ∈ p.sides, isSimplifiedSide side = .ok true := by
  rw [matchesSimplifiedForm, hinput, Answer.ok_bind, ← areSimplifiedSides_iff]
  cases areSimplifiedSides p.sides <;> simp

/-! ### Different monomials -/

namespace Polynomial

/-- The terms of a list can be written, and no two have one monomial. -/
structure IsReduced (l : List (Monomial × Rat)) : Prop where
  writable : ∀ s ∈ l, IsWritable s
  monomials : ∀ s ∈ l, s.1.Canonical
  distinct : (l.map (·.1)).Nodup

variable {l l' : List (Monomial × Rat)} {p : Polynomial}

theorem IsReduced.perm (h : IsReduced l) (hperm : l'.Perm l) : IsReduced l' where
  writable s hs := h.writable s (hperm.subset hs)
  monomials s hs := h.monomials s (hperm.subset hs)
  distinct := (hperm.map _).nodup_iff.mpr h.distinct

theorem Canonical.nodup (hp : p.Canonical) : (p.map (·.1)).Nodup := by
  refine List.pairwise_map.mpr (hp.decreasing.imp fun hlt heq => ?_)
  rw [heq] at hlt
  exact lt_irrefl _ hlt

/-! ### Like terms -/

/-- The key is the likeness of the terms of a monomial. -/
def IsKey (s : Monomial × Rat) (key : String) : Prop :=
  if s.1 = [] then key = Tree.constantLikeness else ∃ minus, key = monomialWord minus s.1

theorem exists_keys {terms : List Term} (h : List.Forall₂ Presents terms l) (hwritable : ∀ s ∈ l, IsWritable s)
    (hmonomials : ∀ s ∈ l, s.1.Canonical) : ∃ keys, Tree.HaveLikenesses terms keys ∧ List.Forall₂ IsKey l keys := by
  induction h with
  | nil => exact ⟨[], .nil, .nil⟩
  | @cons term s terms l hterm _ ih =>
    obtain ⟨hs, hwritable⟩ := List.forall_mem_cons.mp hwritable
    obtain ⟨hm, hmonomials⟩ := List.forall_mem_cons.mp hmonomials
    obtain ⟨keys, hlike, hkeys⟩ := ih hwritable hmonomials
    have hkey : ∃ key, Tree.likeness term.1 = .ok key ∧ IsKey s key := by
      rcases hterm with rfl | ⟨-, rfl⟩
      · exact exists_likeness hs hm
      · exact exists_likeness hs.neg hm
    obtain ⟨key, hfirst, hfits⟩ := hkey
    exact ⟨key :: keys, .cons hfirst hlike, .cons hfits hkeys⟩

theorem isKey_of_ne {s : Monomial × Rat} {key : String} (h : IsKey s key) (hne : key ≠ Tree.constantLikeness) :
    s.1 ≠ [] ∧ ∃ minus, key = monomialWord minus s.1 := by
  unfold IsKey at h
  split_ifs at h with hempty
  · exact absurd h hne
  · exact ⟨hempty, h⟩

/-- Terms of different monomials have different likenesses, but for that of the numbers. -/
theorem count_le_one {keys : List String} (h : List.Forall₂ IsKey l keys) (hwritable : ∀ s ∈ l, IsWritable s)
    (hdistinct : (l.map (·.1)).Nodup) {key : String} (hne : key ≠ Tree.constantLikeness) : keys.count key ≤ 1 := by
  induction h with
  | nil => simp
  | @cons s key' l keys hkey hkeys ih =>
    obtain ⟨hs, hwritable⟩ := List.forall_mem_cons.mp hwritable
    obtain ⟨hnew, hdistinct⟩ := List.nodup_cons.mp hdistinct
    rw [List.count_cons]
    split_ifs with hsame
    · obtain rfl := beq_iff_eq.mp hsame
      have habsent : key' ∉ keys := fun hmem => by
        obtain ⟨r, hr, hlater⟩ := exists_of_forall₂ hkeys.flip hmem
        obtain ⟨hfilled, minus, hword⟩ := isKey_of_ne hkey hne
        obtain ⟨hfilled', minus', hword'⟩ := isKey_of_ne hlater hne
        have hmonomial := monomialWord_injective hfilled hfilled' hs.unknowns (hwritable r hr).unknowns (hword.symm.trans hword')
        exact hnew (List.mem_map.mpr ⟨r, hr, hmonomial.symm⟩)
      rw [List.count_eq_zero_of_not_mem habsent]
    · exact ih hwritable hdistinct

/-- No pattern is found in a layout of different monomials. -/
theorem IsReduced.silent (h : IsReduced l) (hne : l ≠ []) : (layout l).patterns = .ok [] ∧ (layout l).hasOpenWork = .ok false := by
  have hpresents := forall₂_presents_layout (isLettered_of_isWritable h.writable) hne
  obtain ⟨keys, hlike, hkeys⟩ := exists_keys hpresents h.writable h.monomials
  exact Tree.patterns_and_hasOpenWork_iff.mpr ⟨allQuiet_layout h.writable h.distinct,
    Tree.likeTerms_eq_nil_iff.mpr ⟨keys, hlike, fun key hkey => count_le_one hkeys h.writable h.distinct hkey⟩⟩

/-! ### The arrangement -/

theorem IsReduced.simplify (h : IsReduced l) (hp : p.Canonical) (hperm : p.Perm l) : (layout l).simplify = .ok p.toTree := by
  have hdenotes : (layout l).Denotes (toMv l) := denotes_layout fun s hs f hf => ((h.writable s hs).unknowns f hf).2
  rw [← toMv_perm hperm] at hdenotes
  exact Tree.simplify_of_denotes hp hdenotes

/-- A layout has the arrangement of its simplified form. -/
theorem IsReduced.sameArrangement (h : IsReduced l) (hne : l ≠ []) (hperm : p.Perm l) :
    ∃ written answer, (layout l).chars = .ok written ∧ p.toTree.chars = .ok answer ∧ Text.sameArrangement written answer = true := by
  have hdisplay : p.displayOrder.Perm l := p.displayOrder_perm.trans hperm
  have hanswer : p.displayOrder ≠ [] := fun hempty => hne (List.nil_perm.mp (hempty ▸ hdisplay))
  have hterms {l : List (Monomial × Rat)} (h : IsReduced l) : ∀ t ∈ (l.map spelling).map fun t => (Text.bareText t.1, t.2),
      Text.IsTermText t.1 := by
    rw [List.map_map, List.forall_mem_map]
    intro s hs
    rw [Function.comp_apply, Text.bareText_eq_filter]
    exact (h.writable s hs).isProductText.isTermText
  refine ⟨_, _, chars_layout h.writable hne, ?_, Text.sameArrangement_of_perm ((hdisplay.symm.map _).map _) (hterms h)
    (Text.bareText_joinSpaced _) (Text.bareText_joinSpaced _)⟩
  rw [toTree_eq_layout]
  exact chars_layout (h.perm hdisplay).writable hanswer

/-- A text that is read as such a layout is in simplified form. -/
theorem IsReduced.isSimplifiedSide (h : IsReduced l) (hne : l ≠ []) (hp : p.Canonical) (hperm : p.Perm l) {side : String}
    (hread : Tree.ofText side = .ok (layout l)) : isSimplifiedSide side = .ok true := by
  obtain ⟨written, answer, hwritten, hanswer, hsame⟩ := h.sameArrangement hne hperm
  exact (isSimplifiedSide_iff hread).mpr ⟨written, p.toTree, answer, hwritten, h.simplify hp hperm, hanswer, .inl hsame⟩

end Polynomial

/-! ### Accepted texts -/

/-- The text is taken as an expression and read, nothing is found to do on it, and it is in simplified form. -/
structure IsAccepted (text : String) : Prop where
  checked : Input.check text = .ok ⟨text, none⟩
  read : ∃ t, Tree.ofText text = .ok t
  analysis : Analysis.ofText text = ⟨true, false, []⟩
  simplified : matchesSimplifiedForm text = true

theorem isAccepted_of_read {text : String} {t : Tree} (hinput : Input.ofText text = .ok ⟨text, none⟩)
    (hread : Tree.ofText text = .ok t) (hsilent : t.patterns = .ok [] ∧ t.hasOpenWork = .ok false)
    (hside : isSimplifiedSide text = .ok true) : IsAccepted text where
  checked := by simp [Input.check, hinput, Input.sides, Input.readAll, hread]
  read := ⟨t, hread⟩
  analysis := by
    have hanalysis : Analysis.ofText? text = .ok ⟨true, false, []⟩ := by
      simp [Analysis.ofText?, hinput, Input.sides, Analysis.findingsOf, hread, hsilent.1, hsilent.2, Analysis.ofFindings]
    rw [Analysis.ofText, hanalysis]
  simplified := by simp [matchesSimplifiedForm, hinput, Input.sides, areSimplifiedSides, hside]

theorem isAccepted_zero : IsAccepted "0" :=
  isAccepted_of_read (t := .const 0) rfl rfl ⟨rfl, rfl⟩ rfl

namespace Tree

theorem Composed.exists_trimmed {t : Tree} (h : t.Composed) :
    ∃ cs, t.chars = .ok cs ∧ Text.trimChars cs = cs ∧ ofText (String.ofList cs) = .ok t := by
  obtain ⟨ps, q, hwrites, hmeans⟩ := Reader.Piece.exists_writes h
  obtain ⟨s, hs, hread⟩ := Reader.Piece.ofText_of_writes hwrites hmeans
  obtain rfl : String.ofList (Reader.Piece.text ps) = s := by
    rw [text, hwrites.chars] at hs
    exact Except.ok.inj hs
  exact ⟨_, hwrites.chars, Reader.Piece.trimChars_text hwrites.operand, hread⟩

end Tree

/-- Terms of different monomials, in any order, are written as a text that is accepted. -/
theorem Polynomial.IsReduced.isAccepted {l : List (Monomial × Rat)} (h : IsReduced l) (hne : l ≠ []) {p : Polynomial}
    (hp : p.Canonical) (hperm : p.Perm l) : IsAccepted (String.ofList (Text.joinSpaced (l.map spelling))) := by
  obtain ⟨cs, hcs, htrim, hread⟩ := (composed_layout h.writable).exists_trimmed
  obtain rfl := Except.ok.inj ((chars_layout h.writable hne).symm.trans hcs)
  have hfilled : Text.joinSpaced (l.map spelling) ≠ [] := fun hnil => by
    have hblank : (Tree.ofText (String.ofList [])).isOk = false := rfl
    rw [← hnil, hread] at hblank
    exact absurd hblank (by simp [Except.isOk, Except.toBool])
  have hproducts : ∀ t ∈ l.map spelling, Text.IsProductText (Text.withoutBlanks t.1) :=
    List.forall_mem_map.mpr fun s hs => (h.writable s hs).isProductText
  exact isAccepted_of_read (Text.ofText_joinSpaced hproducts hfilled htrim) hread (h.silent hne)
    (h.isSimplifiedSide hne hp hperm hread)

open AlgebraTutor.Polynomial AlgebraTutor.Tree

/-- What simplifying a polynomial in single letters answers is accepted as simplified, its terms written in any order. -/
theorem isAccepted_of_perm_terms {t v : Tree} {f : MvPolynomial String ℚ} (ht : letterPolynomials.Holds t f)
    (hv : t.simplify = .ok v) (hshort : v.HasShortIntegers) {terms : List Term} (hterms : terms.Perm v.terms) :
    ∃ cs, writeTerms terms = .ok cs ∧ IsAccepted (String.ofList cs) := by
  obtain ⟨p, hp, rfl⟩ := ht.1.exists_canonical
  obtain rfl := Except.ok.inj ((simplify_of_denotes hp ht.1).symm.trans hv)
  have hlettered := isLettered_of_holds hp ht
  have hshorts := hasShortIntegers_toTree.mp hshort
  have hreduced : IsReduced p :=
    ⟨fun s hs => ⟨(hlettered s hs).1, (hlettered s hs).2, hshorts s hs⟩, hp.monomials, hp.nodup⟩
  by_cases hempty : p = []
  · subst hempty
    obtain rfl := List.perm_singleton.mp hterms
    exact ⟨['0'], rfl, isAccepted_zero⟩
  · have hdisplay := p.displayOrder_perm
    have hne : p.displayOrder ≠ [] := fun hnil => hempty (List.nil_perm.mp (hnil ▸ hdisplay))
    rw [toTree_eq_layout] at hterms
    have hpresents := forall₂_presents_layout (isLettered_of_isWritable (hreduced.perm hdisplay).writable) hne
    obtain ⟨l, hl, hperm⟩ := List.perm_comp_forall₂ hterms hpresents
    have hlperm : p.Perm l := hdisplay.symm.trans hperm.symm
    have hlreduced := hreduced.perm hlperm.symm
    have hlne : l ≠ [] := fun hnil => hempty (List.perm_nil.mp (hnil ▸ hlperm))
    exact ⟨_, writeTerms_of_presents hlreduced.writable hl, hlreduced.isAccepted hlne hp hlperm⟩

open MvPolynomial (C X) in
/-- The terms of the simplified form of `x(2 - x/3 - y)`, from the last to the first. -/
theorem isAccepted_reversed :
    let t := Tree.apply .mul [.symbol "x", .paren (.apply .sub [.apply .sub [.const 2, .apply .div [.symbol "x", .const 3]], .symbol "y"])]
    ∃ v cs, t.simplify = .ok v ∧ writeTerms v.terms.reverse = .ok cs ∧ IsAccepted (String.ofList cs) := by
  intro t
  have hx : (Tree.symbol "x").Denotes (X "x") := .symbol (by decide)
  have hy : (Tree.symbol "y").Denotes (X "y") := .symbol (by decide)
  have hvalue : t.Denotes (X "x" * (C 2 - C 3⁻¹ * X "x" - X "y")) :=
    .mul hx (.paren (.sub (.sub (.const 2) (.div hx (.const 3) (by decide))) hy))
  have hletters : ∀ v ∈ t.unknowns, ∃ c : Char, c.isAlpha = true ∧ v = c.toString := by
    rw [show t.unknowns = ["x", "y"] by decide +kernel]
    simp only [List.mem_cons, List.not_mem_nil, or_false, forall_eq_or_imp, forall_eq]
    exact ⟨⟨'x', by decide, rfl⟩, 'y', by decide, rfl⟩
  let v := Tree.apply .add [.apply .sub [.apply .div [.apply .sub [.apply .pow [.symbol "x", .const 2]], .const 3],
    .apply .mul [.symbol "x", .symbol "y"]], .apply .mul [.const 2, .symbol "x"]]
  have hsimplify : t.simplify = .ok v := by decide +kernel
  have hshort : v.HasShortIntegers := fun n hn => by
    have hn : (n : ℚ) = 2 ∨ (n : ℚ) = 3 ∨ (n : ℚ) = 2 := by simpa [v, Tree.nodes, Tree.nodesAll] using hn
    have hn : n = 2 ∨ n = 3 := by
      norm_cast at hn
      omega
    rcases hn with rfl | rfl
    · exact (by decide : (Nat.toDigits 10 2).length ≤ digitLimit)
    · exact (by decide : (Nat.toDigits 10 3).length ≤ digitLimit)
  obtain ⟨cs, hcs, haccepted⟩ := isAccepted_of_perm_terms ⟨hvalue, hletters⟩ hsimplify hshort (List.reverse_perm _)
  exact ⟨v, cs, hsimplify, hcs, haccepted⟩

end AlgebraTutor
