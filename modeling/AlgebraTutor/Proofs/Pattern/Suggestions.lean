import AlgebraTutor.Pattern.Analysis
import AlgebraTutor.Proofs.Canonical.Polynomial
import AlgebraTutor.Proofs.Canonical.TermOrder
import AlgebraTutor.Proofs.Pattern.Groups
import AlgebraTutor.Proofs.Pattern.Quiet
import AlgebraTutor.Proofs.Reader.RoundTrip

/-!
# Suggestions are true

A suggestion is put together of texts: that of a node and of what the node is rewritten to, or those of like terms with their
signs edited. In a text of polynomials with integers, each of these texts is read back as a tree of the same polynomial. A node
is read back without the parentheses around it, what it is rewritten to is the layout of its polynomial, and a sum of terms is
read as a chain of sums and differences of them.
-/

namespace AlgebraTutor

namespace Tree

variable {t u n : Tree} {f : MvPolynomial String ℚ}

/-! ### Nodes and what they are rewritten to -/

/-- A node of a tree that denotes a polynomial denotes one. -/
theorem Denotes.of_mem_nodes (ht : t.Denotes f) (h : t.stripParens.Built) (hn : n ∈ t.nodes) :
    n.stripParens.Built ∧ ∃ g, n.Denotes g := by
  have hoperands {op : Op} {l r : Tree} {g : MvPolynomial String ℚ} (hwhole : (apply op [l, r]).Denotes g)
      (h : (apply op [l, r]).Built) (hn : n ∈ (apply op [l, r]).nodes)
      (ihl : l.stripParens.Built → n ∈ l.nodes → n.stripParens.Built ∧ ∃ g, n.Denotes g)
      (ihr : r.stripParens.Built → n ∈ r.nodes → n.stripParens.Built ∧ ∃ g, n.Denotes g) :
      n.stripParens.Built ∧ ∃ g, n.Denotes g := by
    rcases List.mem_cons.mp hn with rfl | hn
    · exact ⟨h, g, hwhole⟩
    · obtain ⟨a, ha, hmem⟩ := mem_nodesAll.mp hn
      rcases List.mem_pair.mp ha with rfl | rfl
      · exact ihl (h.args.2 a (by simp)) hmem
      · exact ihr (h.args.2 a (by simp)) hmem
  induction ht with
  | const value =>
    obtain rfl := List.mem_singleton.mp hn
    exact ⟨h, _, .const value⟩
  | symbol hname =>
    obtain rfl := List.mem_singleton.mp hn
    exact ⟨h, _, .symbol hname⟩
  | paren hcontent ih =>
    rcases List.mem_cons.mp hn with rfl | hn
    · exact ⟨h, _, .paren hcontent⟩
    · exact ih h hn
  | neg ht ih =>
    rcases List.mem_cons.mp hn with rfl | hn
    · exact ⟨h, _, .neg ht⟩
    · exact ih (h.args.2 _ (by simp)) (by simpa [nodesAll] using hn)
  | add hl hr ihl ihr => exact hoperands (.add hl hr) h hn ihl ihr
  | sub hl hr ihl ihr => exact hoperands (.sub hl hr) h hn ihl ihr
  | mul hl hr ihl ihr => exact hoperands (.mul hl hr) h hn ihl ihr
  | div hl hr hc ihl ihr => exact hoperands (.div hl hr hc) h hn ihl ihr
  | pow hl hr hconstant ihl ihr => exact hoperands (.pow hl hr hconstant) h hn ihl ihr

theorem expand_of_denotes {p : Polynomial} (hp : p.Canonical) (ht : t.Denotes p.toMv) : t.expand = .ok p.toTree := by
  rw [expand, polynomial?_eq_some_iff.mpr ⟨hp, ht⟩]

/-- A tree that denotes a polynomial is rewritten to one that denotes it and is read back from its text. -/
theorem Denotes.of_rewriting (hn : n.Denotes f) (hbuilt : n.stripParens.Built) (h : n.simplify = .ok u ∨ n.expand = .ok u)
    {s : String} (hs : u.text = .ok s) : ofText s = .ok u ∧ u.Denotes f := by
  have hletters : letterPolynomials.Holds n f :=
    ⟨hn, fun v hv => hbuilt.isAlpha_of_mem_unknowns (by rwa [unknowns_stripParens])⟩
  obtain ⟨p, -, hp, rfl⟩ := hn.polynomial?
  obtain rfl : u = p.toTree := by
    rw [simplify_of_denotes hp hn, expand_of_denotes hp hn, or_self] at h
    exact (Except.ok.inj h).symm
  have hlayout := (laidOut_toTree hp hletters).built
  refine ⟨?_, (holds_toTree hp hletters).1⟩
  rw [ofText_of_text (hlayout.stripParens.symm ▸ hlayout) hs, hlayout.stripParens]

/-! ### The detectors -/

theorem mem_of_collectAt {detect : Tree → Answer (List Pattern)} {ts : List Tree} {found : List Pattern}
    (h : collectAt detect ts = .ok found) {p : Pattern} (hp : p ∈ found) :
    ∃ n ∈ ts, ∃ here, detect n = .ok here ∧ p ∈ here := by
  induction ts generalizing found with
  | nil =>
    obtain rfl := Except.ok.inj h
    exact nomatch hp
  | cons n ts ih =>
    obtain ⟨here, hhere, h⟩ := Answer.bind_eq_ok_iff.mp h
    obtain ⟨rest, hrest, h⟩ := Answer.bind_eq_ok_iff.mp h
    obtain rfl := Answer.pure_eq_ok_iff.mp h
    rcases List.mem_append.mp hp with hp | hp
    · exact ⟨n, List.mem_cons_self, here, hhere, hp⟩
    · obtain ⟨m, hm, hfound⟩ := ih hrest hp
      exact ⟨m, List.mem_cons_of_mem n hm, hfound⟩

/-- The pattern suggests to write the node as what it is simplified or multiplied out to. -/
structure RewritesAs (n : Tree) (p : Pattern) (before after : String) (u : Tree) : Prop where
  kind : p.kind ≠ .likeTerms
  affected : p.affected = [n]
  suggestion : p.suggestion = becomes before after
  before : n.text = .ok before
  rewritten : n.simplify = .ok u ∨ n.expand = .ok u
  after : u.text = .ok after

/-- A detector of single nodes suggests nothing but rewritings. -/
def IsRewriter (detect : Tree → Answer (List Pattern)) : Prop :=
  ∀ n found, detect n = .ok found → ∀ p ∈ found, ∃ before after u, RewritesAs n p before after u

theorem isRewriter_constantArithmeticAt : IsRewriter constantArithmeticAt := by
  intro n found h p hp
  unfold constantArithmeticAt at h
  split_ifs at h with hnumbers
  · obtain rfl := Except.ok.inj h
    exact nomatch hp
  · obtain ⟨before, u, after, hbefore, hu, hafter, h⟩ := exists_of_rewriting h
    split_ifs at h with hsame
    · obtain rfl := Answer.pure_eq_ok_iff.mp h
      exact nomatch hp
    · obtain rfl := Answer.pure_eq_ok_iff.mp h
      obtain rfl := List.mem_singleton.mp hp
      exact ⟨before, after, u, nofun, rfl, rfl, hbefore, .inl hu, hafter⟩

theorem isRewriter_distributiveAt : IsRewriter distributiveAt := by
  intro n found h p hp
  unfold distributiveAt at h
  split at h
  · split_ifs at h with hsum
    · obtain ⟨before, u, after, hbefore, hu, hafter, h⟩ := exists_of_rewriting h
      obtain rfl := Answer.pure_eq_ok_iff.mp h
      obtain rfl := List.mem_singleton.mp hp
      exact ⟨before, after, u, nofun, rfl, rfl, hbefore, .inr hu, hafter⟩
    · obtain rfl := Except.ok.inj h
      exact nomatch hp
  · obtain rfl := Except.ok.inj h
    exact nomatch hp

theorem isRewriter_coefficientNormalizationAt : IsRewriter coefficientNormalizationAt := by
  intro n found h p hp
  unfold coefficientNormalizationAt at h
  split_ifs at h with hidle
  · obtain rfl := Except.ok.inj h
    exact nomatch hp
  · obtain ⟨before, u, after, hbefore, hu, hafter, h⟩ := exists_of_rewriting h
    obtain rfl := Answer.pure_eq_ok_iff.mp h
    obtain rfl := List.mem_singleton.mp hp
    exact ⟨before, after, u, nofun, rfl, rfl, hbefore, .inl hu, hafter⟩

end Tree

/-! ### True suggestions -/

namespace Pattern

variable {t : Tree} {p : Pattern} {f : MvPolynomial String ℚ}

/-- The pattern suggests an equation about one node of the tree, and both sides are read as trees that denote the polynomial
of the node. -/
def SuggestsEquation (t : Tree) (p : Pattern) : Prop :=
  ∃ n f before after u w, p.affected = [n] ∧ n ∈ t.nodes ∧ n.Denotes f ∧ p.suggestion = Tree.becomes before after ∧
    Tree.ofText before = .ok u ∧ u.Denotes f ∧ Tree.ofText after = .ok w ∧ w.Denotes f

/-- The pattern suggests a sum of terms of the tree, which is read as a tree that denotes the sum of what the terms denote, with
the signs that they carry in the tree. -/
def SuggestsSum (t : Tree) (p : Pattern) : Prop :=
  ∃ members fs w, members.Sublist t.terms ∧ p.affected = members.map (·.1) ∧
    List.Forall₂ Tree.interpretation.reading.HoldsTerm members fs ∧ Tree.ofText p.suggestion = .ok w ∧ w.Denotes fs.sum

/-- What the pattern suggests is true of the tree. -/
def IsTrueOf (t : Tree) (p : Pattern) : Prop :=
  match p.kind with
  | .likeTerms => p.SuggestsSum t
  | .constantArithmetic | .distributive | .coefficientNormalization => p.SuggestsEquation t

theorem isTrueOf_of_equation (hkind : p.kind ≠ .likeTerms) (h : p.SuggestsEquation t) : p.IsTrueOf t := by
  unfold IsTrueOf
  split
  · exact absurd ‹_› hkind
  all_goals exact h

theorem isTrueOf_of_collectAt (ht : t.Denotes f) (hbuilt : t.stripParens.Built) {detect : Tree → Answer (List Pattern)}
    (hdetect : Tree.IsRewriter detect) {found : List Pattern} (h : Tree.collectAt detect t.nodes = .ok found) (hp : p ∈ found) :
    p.IsTrueOf t := by
  obtain ⟨n, hn, here, hhere, hp⟩ := Tree.mem_of_collectAt h hp
  obtain ⟨before, after, u, hrewrites⟩ := hdetect n here hhere p hp
  obtain ⟨hnode, g, hg⟩ := ht.of_mem_nodes hbuilt hn
  obtain ⟨hread, hu⟩ := hg.of_rewriting hnode hrewrites.rewritten hrewrites.after
  have hplain : n.stripParens.Denotes g := Tree.interpretation.reading.holds_stripParens.mpr hg
  exact isTrueOf_of_equation hrewrites.kind ⟨n, g, before, after, n.stripParens, u, hrewrites.affected, hn, hg,
    hrewrites.suggestion, Tree.ofText_of_text hnode hrewrites.before, hplain, hread, hu⟩

theorem isTrueOf_of_likeTerms (ht : t.Denotes f) (hbuilt : t.stripParens.Built) {found : List Pattern} (h : t.likeTerms = .ok found)
    (hp : p ∈ found) : p.IsTrueOf t := by
  obtain ⟨groups, hgroups, hreports⟩ := Tree.likeTerms_eq_ok_iff.mp h
  have hgrouping : Tree.IsGrouping t.terms groups := Tree.isGrouping_of_groupTerms Tree.isGrouping_nil hgroups
  obtain ⟨g, hg, joined, hjoined, rfl⟩ := exists_of_forall₂ hreports.flip hp
  obtain ⟨hmem, hreported⟩ := List.mem_filter.mp hg
  have hsublist : g.members.Sublist t.terms := hgrouping.members g hmem ▸ List.filter_sublist
  have hchars := Tree.exists_chars_of_writeTerms hjoined
  have hwrites : ∀ term ∈ g.members, Reader.Piece.WritesTerm term := fun term hterm => by
    obtain ⟨cs, hcs⟩ := hchars term hterm
    have hterm : term ∈ Tree.termsFrom .plus t.stripParens := hsublist.subset hterm
    exact (Tree.isSummand_of_mem_termsFrom _ _ term hterm).writes
      (Tree.built_of_mem_termsFrom ((Tree.stripParens_stripParens t).symm ▸ hbuilt) _ term hterm) hcs
  have hne : g.members ≠ [] := by
    intro hnil
    simp [Tree.TermGroup.isReported, hnil] at hreported
  obtain ⟨w, hw, hsum⟩ := Reader.exists_ofText_writeTerms hwrites hne hjoined
  have hplain : Tree.interpretation.reading.Holds t.stripParens f := Tree.interpretation.reading.holds_stripParens.mpr ht
  obtain ⟨fs, hfs, -⟩ := Reading.exists_holdsTerm hplain .plus
  obtain ⟨ks, hks⟩ : ∃ ks, List.Forall₂ Tree.interpretation.reading.HoldsTerm g.members ks :=
    exists_forall₂ fun term hterm => (exists_of_forall₂ hfs (hsublist.subset hterm)).imp fun _ h => h.2
  exact ⟨g.members, ks, w, hsublist, rfl, hks, hw, Reading.holds_of_isSumOf hsum hks⟩

/-- Whatever is found in a tree that denotes a polynomial suggests something true. -/
theorem isTrueOf_of_patterns (ht : t.Denotes f) (hbuilt : t.stripParens.Built) {found : List Pattern} (h : t.patterns = .ok found)
    (hp : p ∈ found) : p.IsTrueOf t := by
  obtain ⟨arithmetic, harithmetic, h⟩ := Answer.bind_eq_ok_iff.mp h
  obtain ⟨likeTerms, hlikeTerms, h⟩ := Answer.bind_eq_ok_iff.mp h
  obtain ⟨products, hproducts, h⟩ := Answer.bind_eq_ok_iff.mp h
  obtain ⟨coefficients, hcoefficients, h⟩ := Answer.bind_eq_ok_iff.mp h
  obtain rfl := Answer.pure_eq_ok_iff.mp h
  rcases List.mem_append.mp hp with hp | hp
  · rcases List.mem_append.mp hp with hp | hp
    · rcases List.mem_append.mp hp with hp | hp
      · exact isTrueOf_of_collectAt ht hbuilt Tree.isRewriter_constantArithmeticAt harithmetic hp
      · exact isTrueOf_of_likeTerms ht hbuilt hlikeTerms hp
    · exact isTrueOf_of_collectAt ht hbuilt Tree.isRewriter_distributiveAt hproducts hp
  · exact isTrueOf_of_collectAt ht hbuilt Tree.isRewriter_coefficientNormalizationAt hcoefficients hp

end Pattern

namespace Analysis

theorem mem_of_findingsOf {flag : Bool} {sides : List String} {result : List Pattern × Bool}
    (h : findingsOf flag sides = .ok result) {p : Pattern} (hp : p ∈ result.1) :
    ∃ side ∈ sides, ∃ t found, Tree.ofText side = .ok t ∧ t.patterns = .ok found ∧ p ∈ found := by
  induction sides generalizing flag result with
  | nil =>
    obtain rfl := Except.ok.inj h
    exact nomatch hp
  | cons side sides ih =>
    obtain ⟨t, ht, h⟩ := Answer.bind_eq_ok_iff.mp h
    obtain ⟨found, hfound, h⟩ := Answer.bind_eq_ok_iff.mp h
    obtain ⟨next, later, hlater, rfl⟩ :
        ∃ next later, findingsOf next sides = .ok later ∧ (found ++ later.1, later.2) = result := by
      cases flag
      all_goals
        obtain ⟨next, -, h⟩ := Answer.bind_eq_ok_iff.mp h
        obtain ⟨later, hlater, h⟩ := Answer.bind_eq_ok_iff.mp h
        exact ⟨next, later, hlater, Answer.pure_eq_ok_iff.mp h⟩
    rcases List.mem_append.mp hp with hp | hp
    · exact ⟨side, List.mem_cons_self, t, found, ht, hfound, hp⟩
    · obtain ⟨other, hmem, hother⟩ := ih hlater hp
      exact ⟨other, List.mem_cons_of_mem side hmem, hother⟩

theorem exists_of_mem_patterns {text : String} {p : Pattern} (hp : p ∈ (ofText text).patterns) :
    ∃ input, Input.ofText text = .ok input ∧
      ∃ side ∈ input.sides, ∃ t found, Tree.ofText side = .ok t ∧ t.patterns = .ok found ∧ p ∈ found := by
  rw [ofText] at hp
  cases hanalysis : ofText? text with
  | error failure => simp [hanalysis, empty] at hp
  | ok a =>
    rw [hanalysis] at hp
    obtain ⟨input, hinput, h⟩ := Answer.bind_eq_ok_iff.mp hanalysis
    obtain ⟨⟨patterns, flag⟩, hfindings, h⟩ := Answer.bind_eq_ok_iff.mp h
    obtain rfl := Answer.pure_eq_ok_iff.mp h
    exact ⟨input, hinput, mem_of_findingsOf hfindings hp⟩

/-- The text has integers for its numbers and is read as a tree that denotes a polynomial. -/
def IsPolynomialText (side : String) : Prop :=
  Reader.holdsIntegers side = true ∧ ∃ t f, Tree.ofText side = .ok t ∧ t.Denotes f

/-- No suggestion is false: what a pattern suggests about a polynomial, or about the polynomials of an equation, is true of one
of the trees that are read. -/
theorem suggestions_true {text : String} {input : Input} (hinput : Input.ofText text = .ok input)
    (hsides : ∀ side ∈ input.sides, IsPolynomialText side) :
    ∀ p ∈ (ofText text).patterns, ∃ side ∈ input.sides, ∃ t, Tree.ofText side = .ok t ∧ p.IsTrueOf t := by
  intro p hp
  obtain ⟨input', hinput', side, hside, t, found, ht, hfound, hp⟩ := exists_of_mem_patterns hp
  obtain rfl : input = input' := Except.ok.inj (hinput.symm.trans hinput')
  obtain ⟨hintegers, t', f, ht', hf⟩ := hsides side hside
  obtain rfl : t = t' := Except.ok.inj (ht.symm.trans ht')
  have hcomposed := Reader.composed_of_ofText ht hintegers
  exact ⟨side, hside, t, ht, Pattern.isTrueOf_of_patterns hf (hcomposed.stripParens.symm ▸ hcomposed.built) hfound hp⟩

/-- Suggestions of every kind, in both sides of `-2(x + 1) + 3x - x = 1*y - 9/3`. -/
theorem suggestions_true_equation :
    let text := "-2(x + 1) + 3x - x = 1*y - 9/3"
    (ofText text).patterns.map (·.suggestion) = ["3x - x", "-2 * (x + 1) = -2x - 2", "9/3 = 3", "1y = y"] ∧
    ∃ input, Input.ofText text = .ok input ∧ (∀ side ∈ input.sides, IsPolynomialText side) ∧
      ∀ p ∈ (ofText text).patterns, ∃ side ∈ input.sides, ∃ t, Tree.ofText side = .ok t ∧ p.IsTrueOf t := by
  intro text
  let x := Tree.symbol "x"
  let y := Tree.symbol "y"
  have hinput : Input.ofText text = .ok ⟨text, some ("-2(x + 1) + 3x - x", "1*y - 9/3")⟩ := by decide +kernel
  have hleft : IsPolynomialText "-2(x + 1) + 3x - x" := by
    have hread : Tree.ofText "-2(x + 1) + 3x - x" = .ok (.apply .sub [.apply .add [.apply .mul [.const (-2),
        .paren (.apply .add [x, .const 1])], .apply .mul [.const 3, x]], x]) := by decide +kernel
    have hx : x.Denotes (MvPolynomial.X "x") := .symbol rfl
    exact ⟨by decide +kernel, _, _, hread, .sub (.add (.mul (.const _) (.paren (.add hx (.const _)))) (.mul (.const _) hx)) hx⟩
  have hright : IsPolynomialText "1*y - 9/3" := by
    have hread : Tree.ofText "1*y - 9/3" = .ok (.apply .sub [.apply .mul [.const 1, y], .apply .div [.const 9, .const 3]]) := by
      decide +kernel
    have hy : y.Denotes (MvPolynomial.X "y") := .symbol rfl
    exact ⟨by decide +kernel, _, _, hread, .sub (.mul (.const _) hy) (.div (.const _) (.const _) (by norm_num))⟩
  have hsides : ∀ side ∈ (⟨text, some ("-2(x + 1) + 3x - x", "1*y - 9/3")⟩ : Input).sides, IsPolynomialText side := by
    simpa [Input.sides] using And.intro hleft hright
  exact ⟨by decide +kernel, _, hinput, hsides, suggestions_true hinput hsides⟩

end Analysis

end AlgebraTutor
