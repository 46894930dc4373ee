import AlgebraTutor.Proofs.Canonical.Filing
import AlgebraTutor.Proofs.Pattern.Factors
import AlgebraTutor.Proofs.Pattern.Genuine
import AlgebraTutor.Proofs.Pattern.Suggestions

/-!
# Like monomials

Two terms with an unknown are reported together exactly if their essences are the same factors in some order. In a sum of
monomials nothing else is found but idle factors, so its analysis does not fail. The essence of a monomial is made of its
letters, unless a sign is left in front of one of them or parentheses around the whole: in `-xy` the minus belongs to the first
factor, so this term and `xy` are not reported together.
-/

namespace AlgebraTutor

namespace Tree

variable {t u n : Tree} {ks : List Int} {vs ws : List String}

/-! ### Likenesses -/

theorem mem_nodes_of_mem_factorsFrom {f : Tree} (hf : f ∈ factorsFrom t) : f ∈ t.nodes := by
  fun_induction factorsFrom t with
  | case1 content ih => exact List.mem_cons_of_mem _ (ih hf)
  | case2 left right ihl ihr =>
    rcases List.mem_append.mp hf with hf | hf
    · exact mem_nodes_of_operand (by simp) (ihl hf)
    · exact mem_nodes_of_operand (by simp) (ihr hf)
  | case3 t =>
    obtain rfl := List.mem_singleton.mp hf
    exact mem_nodes_self f

theorem mem_nodes_of_mem_essenceOf {withinParens : Bool} {f : Tree} (hf : f ∈ essenceOf withinParens t) : f ∈ t.nodes := by
  fun_induction essenceOf withinParens t with
  | case1 content ih => exact List.mem_cons_of_mem _ (ih hf)
  | case3 withinParens t ih => exact mem_nodes_of_operand (by simp) (ih hf)
  | case4 withinParens left right => exact mem_nodes_of_mem_factorsFrom (List.mem_of_mem_filter hf)
  | case5 withinParens left right hright ih => exact mem_nodes_of_operand (by simp) (ih hf)
  | case2 | case6 | case7 =>
    obtain rfl := List.mem_singleton.mp hf
    exact mem_nodes_self _

theorem countsAsNumber_eq_false (h : t.isConstant = false) (withinParens : Bool) : countsAsNumber withinParens t = false := by
  cases t with
  | paren content => rw [countsAsNumber, ← isConstant_paren, h, Bool.and_false]
  | const | symbol | apply => exact h

theorem exists_likeness_of_texts (h : ∀ f ∈ t.essence, ∃ s, f.text = .ok s) : ∃ key, likeness t = .ok key := by
  simp only [likeness, likenessOf_eq_ok_iff]
  split_ifs
  · exact ⟨_, rfl⟩
  · obtain ⟨texts, htexts⟩ := exists_forall₂ h
    exact ⟨_, texts, htexts, rfl⟩

/-- The likeness of a term with an unknown is not the one of the numbers. -/
theorem likeness_ne_constantLikeness {key : String} (ht : t.stripParens.Constructed) (hunknown : t.isConstant = false)
    (h : likeness t = .ok key) : key ≠ constantLikeness := by
  rintro rfl
  rw [likeness, likenessOf_eq_ok_iff, countsAsNumber_eq_false hunknown, if_neg Bool.false_ne_true] at h
  obtain ⟨texts, htexts, hspelled⟩ := h
  have hone : HaveTexts [.const 1] [constantLikeness] := haveTexts_singleton (by decide +kernel)
  have hts := constructed_of_mem_essenceOf false ht
  have hconstructed : ∀ u ∈ [Tree.const 1], u.stripParens.Constructed := by simpa [Tree.stripParens] using Constructed.integer 1
  have hperm : t.essence.Perm [.const 1] := perm_of_haveTexts hts hconstructed htexts hone <|
    perm_of_spellEssence_eq (isFactorText_of_haveTexts hts htexts) (isFactorText_of_haveTexts hconstructed hone)
      (hspelled.symm.trans (spellEssence_singleton _).symm)
  obtain ⟨name, hname⟩ := List.exists_mem_of_ne_nil _ (List.isEmpty_eq_false_iff.mp hunknown)
  obtain ⟨f, hf, hname⟩ := (mem_unknowns_essenceOf false).mp hname
  obtain rfl := List.mem_singleton.mp (hperm.subset hf)
  simp [unknowns_const] at hname

/-- Two terms with an unknown are reported together exactly if their essences are the same in some order. -/
theorem exists_reported_iff_perm {patterns : List Pattern} (ht : t.Constructed) (h : t.likeTerms = .ok patterns) {a b : Term}
    (hab : [a, b].Sublist t.terms) (ha : a.1.isConstant = false) (hb : b.1.isConstant = false) :
    (∃ p ∈ patterns, [a.1, b.1].Sublist p.affected) ↔ a.1.essence.Perm b.1.essence := by
  have hterm (term : Term) (hmem : term ∈ [a, b]) : term.1.stripParens.Constructed ∧ ∃ key, likeness term.1 = .ok key := by
    have hterms : term ∈ t.terms := hab.subset hmem
    obtain ⟨groups, hgroups, -⟩ := likeTerms_eq_ok_iff.mp h
    obtain ⟨keys, hkeys⟩ := exists_haveLikenesses hgroups
    obtain ⟨key, -, hkey⟩ := exists_of_forall₂ hkeys hterms
    exact ⟨constructed_of_mem_termsFrom (by rwa [ht.stripParens, ht.stripParens]) .plus term hterms, key, hkey⟩
  obtain ⟨hconstructed, key, hkey⟩ := hterm a (by simp)
  obtain ⟨hconstructed', key', hkey'⟩ := hterm b (by simp)
  rw [exists_reported_iff h hab, ← likeness_eq_iff hconstructed hconstructed' (countsAsNumber_eq_false ha false)
    (countsAsNumber_eq_false hb false) hkey hkey', hkey, hkey']
  constructor
  · rintro ⟨k, -, hsame, hsame'⟩
    exact Except.ok.inj (hsame.trans hsame'.symm)
  · rintro rfl
    exact ⟨key, likeness_ne_constantLikeness hconstructed ha hkey, rfl, rfl⟩

/-! ### Sums of monomials -/

/-- The tree is a product of the letters, few enough to be counted by an exponent that can be written, and of one number at
most. -/
structure IsMonomial (t : Tree) (vs : List String) : Prop where
  factors : ∃ ks : List Int, t.HasFactors ks vs ∧ ks.length ≤ 1
  letters : vs ≠ []
  short : vs.length < 10 ^ digitLimit

theorem IsMonomial.isConstant (h : t.IsMonomial vs) : t.isConstant = false := by
  obtain ⟨ks, hfactors, -⟩ := h.factors
  rw [hfactors.isConstant, List.isEmpty_eq_false_iff]
  exact h.letters

theorem IsMonomial.isNumber (h : t.IsMonomial vs) : t.isNumber = false := by
  obtain ⟨ks, hfactors, -⟩ := h.factors
  exact Bool.eq_false_iff.mpr fun hnumber => h.letters (hfactors.isNumber hnumber).2

/-- At the node is nothing to find but an idle number, and that can be reported. -/
structure IsUnremarkable (n : Tree) : Prop where
  arithmetic : n.isNumberOperation = false
  product : n.distributiveAt = .ok []
  coefficient : ∃ found, n.coefficientNormalizationAt = .ok found

theorem IsMonomial.isUnremarkable (h : t.IsMonomial vs) {cs : List Char} (hcs : t.chars = .ok cs) :
    ∀ n ∈ t.nodes, n.IsUnremarkable := by
  intro n hn
  obtain ⟨ks, hfactors, hks⟩ := h.factors
  obtain ⟨⟨ds, hds⟩, js, ws, hnode, hjs, hws⟩ := hfactors.of_mem_nodes hcs hn
  have hlength : js.length ≤ 1 := hjs.length_le.trans hks
  exact ⟨hnode.isNumberOperation hlength, hnode.distributiveAt,
    hnode.exists_coefficientNormalizationAt hlength (hws.length_le.trans_lt h.short) hds⟩

/-- A sum of monomials is no number. -/
theorem isNumber_of_termsFrom {sign : Sign} (h : ∀ term ∈ termsFrom sign t, ∃ vs, term.1.IsMonomial vs) : t.isNumber = false := by
  cases t with
  | symbol | apply => rfl
  | const value =>
    obtain ⟨vs, hterm⟩ := h (.const value, sign) (by rw [(isSummand_const value).termsFrom]; simp)
    exact hterm.isNumber
  | paren content =>
    obtain ⟨vs, hterm⟩ := h (.paren content, sign) (by rw [(isSummand_paren content).termsFrom]; simp)
    exact hterm.isNumber

theorem isUnremarkable_sum {op : Op} {l r : Tree} (hop : op = .add ∨ op = .sub) (hl : l.isNumber = false) (hr : r.isNumber = false) :
    (apply op [l, r]).IsUnremarkable := by
  have harithmetic : (apply op [l, r]).isNumberOperation = false := by simp [isNumberOperation, hl]
  refine ⟨harithmetic, by rcases hop with rfl | rfl <;> rfl, [], coefficientNormalizationAt_eq_nil_iff.mpr (.inr ?_)⟩
  have hidle : (apply op [l, r]).hasIdleNumber = hasNumber (· == 0) [l, r] := by rcases hop with rfl | rfl <;> rfl
  rw [hidle, Bool.eq_false_iff, Ne, hasNumber_eq_true_iff]
  rintro ⟨a, ha, value, hvalue, -⟩
  have hnumber : a.isNumber = true := by rw [isNumber, hvalue]
  rcases List.mem_pair.mp ha with rfl | rfl
  · exact Bool.false_ne_true (hl.symm.trans hnumber)
  · exact Bool.false_ne_true (hr.symm.trans hnumber)

theorem isUnremarkable_sign (h : t.isNumber = false) : (apply .sub [t]).IsUnremarkable :=
  ⟨by simp [isNumberOperation, h], rfl, [], coefficientNormalizationAt_eq_nil_iff.mpr (.inr rfl)⟩

/-- Every node of a written sum of monomials is unremarkable. -/
theorem isUnremarkable_of_termsFrom (sign : Sign) (t : Tree) (h : ∀ term ∈ termsFrom sign t, ∃ vs, term.1.IsMonomial vs)
    {cs : List Char} (hcs : t.chars = .ok cs) : ∀ n ∈ t.nodes, n.IsUnremarkable := by
  induction sign, t using termsFrom.induct generalizing cs with
  | case1 sign left right ihl ihr | case2 sign left right ihl ihr =>
    rw [termsFrom] at h
    obtain ⟨hl, hr⟩ := List.forall_mem_append.mp h
    obtain ⟨_, -, ds, hds, es, hes, -⟩ := (chars_operator_eq_ok_iff rfl).mp hcs
    rw [nodes, List.forall_mem_cons]
    refine ⟨isUnremarkable_sum (by simp) (isNumber_of_termsFrom hl) (isNumber_of_termsFrom hr), fun n hn => ?_⟩
    obtain ⟨a, ha, hmem⟩ := mem_nodesAll.mp hn
    rcases List.mem_pair.mp ha with rfl | rfl
    · exact ihl hl hds n hmem
    · exact ihr hr hes n hmem
  | case3 sign t ih =>
    rw [termsFrom] at h
    obtain ⟨ds, hds, -⟩ := chars_sign_eq_ok_iff.mp hcs
    rw [nodes, List.forall_mem_cons]
    exact ⟨isUnremarkable_sign (isNumber_of_termsFrom h), fun n hn => ih h hds n (by simpa [nodesAll] using hn)⟩
  | case4 sign t hadd hsub hsign =>
    obtain ⟨vs, hterm⟩ := h (t, sign) (by rw [IsSummand.termsFrom ⟨hadd, hsub, hsign⟩]; simp)
    exact hterm.isUnremarkable hcs

/-! ### From nodes to the analysis -/

theorem exists_collectAt {detect : Tree → Answer (List Pattern)} {ts : List Tree} (h : ∀ t ∈ ts, ∃ found, detect t = .ok found) :
    ∃ found, collectAt detect ts = .ok found := by
  induction ts with
  | nil => exact ⟨[], rfl⟩
  | cons t ts ih =>
    obtain ⟨⟨here, hhere⟩, hts⟩ := List.forall_mem_cons.mp h
    obtain ⟨rest, hrest⟩ := ih hts
    exact ⟨here ++ rest, by rw [collectAt, hhere, Answer.ok_bind, hrest]; rfl⟩

theorem exists_someUnfinished {ts : List Tree} (h : ∀ t ∈ ts, t.isNumberOperation = false) :
    ∃ unfinished, someUnfinished ts = .ok unfinished := by
  induction ts with
  | nil => exact ⟨false, rfl⟩
  | cons t ts ih =>
    obtain ⟨ht, hts⟩ := List.forall_mem_cons.mp h
    obtain ⟨unfinished, hrest⟩ := ih hts
    have hfinished : t.isUnfinishedArithmetic = .ok false := by simp [isUnfinishedArithmetic, ht]
    cases hunit : t.hasUnitFactor with
    | true => exact ⟨true, by simp [someUnfinished, hfinished, hunit]⟩
    | false => exact ⟨unfinished, by simp [someUnfinished, hfinished, hunit, hrest]⟩

/-- In a tree of unremarkable nodes are like terms and idle numbers only. -/
theorem exists_patterns (h : ∀ n ∈ t.nodes, n.IsUnremarkable) {like : List Pattern} (hlike : t.likeTerms = .ok like) :
    (∃ idle, t.idleNumbers = .ok idle ∧ t.patterns = .ok (like ++ idle)) ∧ ∃ unfinished, t.hasOpenWork = .ok unfinished := by
  have harithmetic : t.openArithmetic = .ok [] :=
    collectAt_eq_nil_iff.mpr fun n hn => by simp [constantArithmeticAt, (h n hn).arithmetic]
  have hproducts : t.openProducts = .ok [] := collectAt_eq_nil_iff.mpr fun n hn => (h n hn).product
  obtain ⟨idle, hidle⟩ : ∃ idle, t.idleNumbers = .ok idle := exists_collectAt fun n hn => (h n hn).coefficient
  refine ⟨⟨idle, hidle, ?_⟩, exists_someUnfinished fun n hn => (h n hn).arithmetic⟩
  rw [patterns, harithmetic, hlike, hproducts, hidle]
  simp

theorem exists_likeTerms {cs : List Char} (hcs : t.stripParens.chars = .ok cs)
    (h : ∀ term ∈ t.terms, ∃ vs, term.1.IsMonomial vs) : ∃ like, t.likeTerms = .ok like := by
  have hchars : ∀ term ∈ t.terms, ∃ ds, term.1.chars = .ok ds := exists_chars_of_mem_termsFrom hcs .plus
  have hlikeness : ∀ term ∈ t.terms, ∃ key, likeness term.1 = .ok key := by
    intro term hterm
    obtain ⟨vs, hmonomial⟩ := h term hterm
    obtain ⟨ks, hfactors, -⟩ := hmonomial.factors
    obtain ⟨ds, hds⟩ := hchars term hterm
    refine exists_likeness_of_texts fun f hf => ?_
    obtain ⟨⟨es, hes⟩, -⟩ := hfactors.of_mem_nodes hds (mem_nodes_of_mem_essenceOf hf)
    exact ⟨String.ofList es, by rw [text, hes]; rfl⟩
  obtain ⟨groups, hgroups, hgrouping⟩ := exists_isGrouping hlikeness
  obtain ⟨patterns, hreports⟩ : ∃ patterns, List.Forall₂ TermGroup.Reports (groups.filter (·.isReported)) patterns := by
    refine exists_forall₂ fun g hg => ?_
    obtain ⟨joined, hjoined⟩ : ∃ joined, writeTerms g.members = .ok joined := exists_writeTerms fun term hterm => by
      rw [hgrouping.members g (List.mem_of_mem_filter hg)] at hterm
      exact hchars term (List.mem_of_mem_filter hterm)
    exact ⟨_, joined, hjoined, rfl⟩
  exact ⟨patterns, likeTerms_eq_ok_iff.mpr ⟨groups, hgroups, hreports⟩⟩

/-! ### Bare monomials -/

/-- No sign is left within the term and no parentheses are left around it. -/
structure IsBare (t : Tree) : Prop where
  unsigned : ∀ u, .apply .sub [u] ∉ t.nodes
  unenclosed : ∀ content, t ≠ .paren content

theorem HasFactors.filter_factorsFrom (h : t.HasFactors ks vs) (hunsigned : ∀ u, .apply .sub [u] ∉ t.nodes) :
    ((factorsFrom t).filter fun f => !f.isConstant) = vs.map .symbol := by
  induction h with
  | number k => simp [factorsFrom, Tree.isConstant, unknowns_const]
  | letter hv => simp [factorsFrom, isConstant_symbol, hv.2]
  | paren _ ih => exact ih fun u hu => hunsigned u (List.mem_cons_of_mem _ hu)
  | sign => exact absurd (mem_nodes_self _) (hunsigned _)
  | product _ _ ihl ihr =>
    rw [factorsFrom, List.filter_append, List.map_append, ihl fun u hu => hunsigned u (mem_nodes_of_operand (by simp) hu),
      ihr fun u hu => hunsigned u (mem_nodes_of_operand (by simp) hu)]

/-- The essence of a bare monomial is made of its letters. -/
theorem IsMonomial.essence (h : t.IsMonomial vs) (hbare : t.IsBare) : t.essence = vs.map .symbol := by
  obtain ⟨ks, hfactors, -⟩ := h.factors
  cases hfactors with
  | number => exact absurd rfl h.letters
  | letter => rfl
  | paren => exact absurd rfl (hbare.unenclosed _)
  | sign => exact absurd (mem_nodes_self _) (hbare.unsigned _)
  | product hl hr => exact (hl.product hr).filter_factorsFrom hbare.unsigned

theorem IsMonomial.essence_perm_iff (h : t.IsMonomial vs) (h' : u.IsMonomial ws) (hbare : t.IsBare) (hbare' : u.IsBare) :
    t.essence.Perm u.essence ↔ vs.Perm ws := by
  rw [h.essence hbare, h'.essence hbare', List.map_perm_map_iff fun _ _ => symbol.inj]

end Tree

namespace Analysis

theorem ofText?_expression {text : String} {p : Input} (hinput : Input.ofText text = .ok p) (hexpression : p.equation = none) {t : Tree}
    (hread : Tree.ofText p.trimmed = .ok t) {found : List Pattern} (hfound : t.patterns = .ok found) {unfinished : Bool}
    (hwork : t.hasOpenWork = .ok unfinished) : ofText? text = .ok (ofFindings found unfinished) := by
  have hsides : p.sides = [p.trimmed] := by rw [Input.sides, hexpression]
  have hfindings : findingsOf false p.sides = .ok (found, unfinished) := by
    rw [hsides]
    simp [findingsOf, hread, hfound, hwork]
  rw [ofText?, hinput, Answer.ok_bind, hfindings]
  rfl

/-- The trees are reported as two of like terms. -/
def ReportsTogether (r : Analysis) (a b : Tree) : Prop :=
  ∃ p ∈ r.patterns, p.kind = .likeTerms ∧ [a, b].Sublist p.affected

/-- The analysis of a sum of monomials does not fail, and it reports two terms together exactly if their essences are the same in
some order; where no sign and no parentheses are left to the terms, this is to say that they have the same letters. -/
theorem reportsTogether_iff {text : String} {p : Input} (hinput : Input.ofText text = .ok p) (hexpression : p.equation = none)
    (hintegers : Reader.holdsIntegers p.trimmed = true) {t : Tree} (hread : Tree.ofText p.trimmed = .ok t)
    (hterms : ∀ term ∈ t.terms, ∃ vs, term.1.IsMonomial vs) :
    (∃ r, ofText? text = .ok r) ∧ ∀ a b, [a, b].Sublist t.terms →
      ((ofText text).ReportsTogether a.1 b.1 ↔ a.1.essence.Perm b.1.essence) ∧
      ∀ vs ws, a.1.IsMonomial vs → b.1.IsMonomial ws → a.1.IsBare → b.1.IsBare →
        ((ofText text).ReportsTogether a.1 b.1 ↔ vs.Perm ws) := by
  have hcomposed := Reader.composed_of_ofText hread hintegers
  have hplain := hcomposed.stripParens
  obtain ⟨cs, hcs⟩ := hcomposed.exists_chars
  obtain ⟨like, hlike⟩ := Tree.exists_likeTerms (hplain.symm ▸ hcs) hterms
  have hnodes : ∀ n ∈ t.nodes, n.IsUnremarkable :=
    Tree.isUnremarkable_of_termsFrom .plus t (by rwa [Tree.terms, hplain] at hterms) hcs
  obtain ⟨⟨idle, hidle, hpatterns⟩, unfinished, hwork⟩ := Tree.exists_patterns hnodes hlike
  have hanalysis := ofText?_expression hinput hexpression hread hpatterns hwork
  have hreported (a b : Tree) : (ofText text).ReportsTogether a b ↔ ∃ p ∈ like, [a, b].Sublist p.affected := by
    have hfound : (ofText text).patterns = like ++ idle := by rw [ofText, hanalysis]; rfl
    rw [ReportsTogether, hfound]
    constructor
    · rintro ⟨p, hp, hkind, hsublist⟩
      rcases List.mem_append.mp hp with hp | hp
      · exact ⟨p, hp, hsublist⟩
      · obtain ⟨n, -, here, hhere, hp⟩ := Tree.mem_of_collectAt hidle hp
        obtain ⟨before, after, u, hrewrites⟩ := Tree.isRewriter_coefficientNormalizationAt n here hhere p hp
        exact absurd hkind hrewrites.kind
    · rintro ⟨p, hp, hsublist⟩
      exact ⟨p, List.mem_append_left _ hp, Tree.kind_of_mem_likeTerms hlike hp, hsublist⟩
  refine ⟨⟨_, hanalysis⟩, fun a b hab => ?_⟩
  obtain ⟨vs, ha⟩ := hterms a (hab.subset (by simp))
  obtain ⟨ws, hb⟩ := hterms b (hab.subset (by simp))
  have htogether : (ofText text).ReportsTogether a.1 b.1 ↔ a.1.essence.Perm b.1.essence :=
    (hreported a.1 b.1).trans (Tree.exists_reported_iff_perm hcomposed.constructed hlike hab ha.isConstant hb.isConstant)
  exact ⟨htogether, fun vs ws ha hb hbare hbare' => htogether.trans (ha.essence_perm_iff hb hbare hbare')⟩

/-- Like monomials in `2xy - 3yx`. -/
theorem reportsTogether_product :
    let a := Tree.apply .mul [.apply .mul [.const 2, .symbol "x"], .symbol "y"]
    let b := Tree.apply .mul [.apply .mul [.const 3, .symbol "y"], .symbol "x"]
    Tree.ofText "2xy - 3yx" = .ok (.binary .sub a b) ∧ (ofText "2xy - 3yx").ReportsTogether a b := by
  intro a b
  have hx : Tree.IsUnknown "x" := ⟨⟨'x', by decide, rfl⟩, rfl⟩
  have hy : Tree.IsUnknown "y" := ⟨⟨'y', by decide, rfl⟩, rfl⟩
  have hshort : 2 < 10 ^ Tree.digitLimit := Nat.lt_of_lt_of_le (by decide) (Nat.le_self_pow (by decide) 10)
  have hinput : Input.ofText "2xy - 3yx" = .ok ⟨"2xy - 3yx", none⟩ := by decide +kernel
  have hread : Tree.ofText "2xy - 3yx" = .ok (.binary .sub a b) := by decide +kernel
  have ha : a.IsMonomial ["x", "y"] := ⟨⟨[2], .product (.product (.number 2) (.letter hx)) (.letter hy), by simp⟩, by simp, hshort⟩
  have hb : b.IsMonomial ["y", "x"] := ⟨⟨[3], .product (.product (.number 3) (.letter hy)) (.letter hx), by simp⟩, by simp, hshort⟩
  have hbare : a.IsBare := ⟨by simp [a, Tree.nodes, Tree.nodesAll], by simp [a]⟩
  have hbare' : b.IsBare := ⟨by simp [b, Tree.nodes, Tree.nodesAll], by simp [b]⟩
  have hterms : (Tree.binary .sub a b).terms = [(a, .plus), (b, .minus)] := rfl
  have hmonomials : ∀ term ∈ (Tree.binary .sub a b).terms, ∃ vs, term.1.IsMonomial vs := by
    rw [hterms]
    simpa using And.intro ⟨_, ha⟩ ⟨_, hb⟩
  obtain ⟨-, htogether⟩ := reportsTogether_iff hinput rfl (by decide +kernel) hread hmonomials
  have hletters := (htogether (a, .plus) (b, .minus) (hterms ▸ .refl _)).2 _ _ ha hb hbare hbare'
  exact ⟨hread, hletters.mpr (.swap "y" "x" [])⟩

/-- In `-xy + xy` the two terms have the same letters, and nothing is reported. -/
theorem not_reportsTogether_signed :
    let a := Tree.binary .mul (.negate (.symbol "x")) (.symbol "y")
    let b := Tree.binary .mul (.symbol "x") (.symbol "y")
    Tree.ofText "-xy + xy" = .ok (.binary .add a b) ∧ (Tree.binary .add a b).terms = [(a, .plus), (b, .plus)] ∧
      a.IsMonomial ["x", "y"] ∧ b.IsMonomial ["x", "y"] ∧ (ofText "-xy + xy").isSimplified = true ∧
      ¬(ofText "-xy + xy").ReportsTogether a b := by
  intro a b
  have hx : Tree.IsUnknown "x" := ⟨⟨'x', by decide, rfl⟩, rfl⟩
  have hy : Tree.IsUnknown "y" := ⟨⟨'y', by decide, rfl⟩, rfl⟩
  have hshort : 2 < 10 ^ Tree.digitLimit := Nat.lt_of_lt_of_le (by decide) (Nat.le_self_pow (by decide) 10)
  have ha : a.IsMonomial ["x", "y"] := ⟨⟨[], .product (.sign (.letter hx) (by simp)) (.letter hy), by simp⟩, by simp, hshort⟩
  have hb : b.IsMonomial ["x", "y"] := ⟨⟨[], .product (.letter hx) (.letter hy), by simp⟩, by simp, hshort⟩
  have hpatterns : (ofText "-xy + xy").patterns = [] := by decide +kernel
  refine ⟨by decide +kernel, rfl, ha, hb, by decide +kernel, ?_⟩
  rintro ⟨p, hp, -⟩
  rw [hpatterns] at hp
  exact nomatch hp

end Analysis

end AlgebraTutor
