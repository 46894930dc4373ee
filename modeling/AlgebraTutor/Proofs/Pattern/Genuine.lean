import AlgebraTutor.Proofs.Pattern.Essence
import AlgebraTutor.Proofs.Pattern.Groups
import AlgebraTutor.Proofs.Tree.Valuation

/-!
# Like terms are multiples of one tree

A term has the value of its essence times a factor without an unknown, which is made of the numbers among its factors, of its
signs and of the divisors without an unknown. So terms whose essences are the same in some order are multiples of one tree,
whatever the symbols, the powers and the calls stand for. Terms that stand in parentheses are compared as a whole, so numbers in
parentheses are taken for like terms as well.
-/

namespace AlgebraTutor

namespace Valuation

open AlgebraTutor.Tree (productOf factorsFrom)

variable {K : Type} [Field K] [DecidableEq K] {v : Valuation K} {t u : Tree} {ts us : List Tree} {x y : K} {xs ys : List K}

/-! ### Products -/

theorem values_eq_some_iff : v.values ts = some xs ↔ List.Forall₂ (fun t x => v.value t = some x) ts xs := by
  induction ts generalizing xs with
  | nil => simp [values, eq_comm]
  | cons t ts ih =>
    simp only [values, Option.bind_eq_some_iff, Option.map_eq_some_iff, List.forall₂_cons_left_iff, ih]
    constructor
    · rintro ⟨x, hx, xs, hxs, rfl⟩
      exact ⟨x, xs, hx, hxs, rfl⟩
    · rintro ⟨x, xs, hx, hxs, rfl⟩
      exact ⟨x, hx, xs, hxs, rfl⟩

theorem values_append (hts : v.values ts = some xs) (hus : v.values us = some ys) : v.values (ts ++ us) = some (xs ++ ys) := by
  rw [values_eq_some_iff] at hts hus ⊢
  exact List.rel_append hts hus

theorem value_mul : v.value (.apply .mul [t, u]) = some x ↔ ∃ y z, v.value t = some y ∧ v.value u = some z ∧ y * z = x := by
  simp [value_apply_two, operate, Option.bind_eq_some_iff]

theorem value_foldl_mul (ht : v.value t = some x) (hus : v.values us = some ys) :
    v.value (us.foldl (Tree.binary .mul) t) = some (x * ys.prod) := by
  induction us generalizing t x ys with
  | nil =>
    obtain rfl := Option.some.inj hus
    simpa using ht
  | cons u us ih =>
    obtain ⟨y, rest, hy, hrest, rfl⟩ := List.forall₂_cons_left_iff.mp (values_eq_some_iff.mp hus)
    have hproduct : v.value (Tree.binary .mul t u) = some (x * y) :=
      value_mul.mpr ⟨x, y, by simpa using ht, by simpa using hy, rfl⟩
    rw [List.foldl_cons, ih hproduct (values_eq_some_iff.mpr hrest), List.prod_cons, mul_assoc]

theorem value_const_one : v.value (.const 1) = some 1 := by
  rw [value_const, Rat.cast_one]

/-- A product has the product of the values of its factors. -/
theorem value_productOf (h : v.values ts = some xs) : v.value (productOf ts) = some xs.prod := by
  cases ts with
  | nil =>
    obtain rfl := Option.some.inj h
    exact value_const_one
  | cons t ts =>
    obtain ⟨x, rest, hx, hrest, rfl⟩ := List.forall₂_cons_left_iff.mp (values_eq_some_iff.mp h)
    exact value_foldl_mul hx (values_eq_some_iff.mpr hrest)

theorem exists_values_factorsFrom (h : v.value t = some x) : ∃ xs, v.values (factorsFrom t) = some xs ∧ xs.prod = x := by
  fun_induction factorsFrom t generalizing x with
  | case1 content ih => exact ih (value_paren.symm.trans h)
  | case2 left right ihl ihr =>
    obtain ⟨y, z, hy, hz, rfl⟩ := value_mul.mp h
    obtain ⟨ys, hys, rfl⟩ := ihl hy
    obtain ⟨zs, hzs, rfl⟩ := ihr hz
    exact ⟨ys ++ zs, values_append hys hzs, List.prod_append⟩
  | case3 t => exact ⟨[x], by simp [values, h], List.prod_singleton⟩

/-- The factors of two kinds have the values of all of them. -/
theorem exists_values_filter (p : Tree → Bool) (h : v.values ts = some xs) :
    ∃ ys zs, v.values (ts.filter p) = some ys ∧ v.values (ts.filter fun t => !p t) = some zs ∧ xs.prod = ys.prod * zs.prod := by
  induction ts generalizing xs with
  | nil => exact ⟨[], [], rfl, rfl, by simp [Option.some.inj h.symm]⟩
  | cons t ts ih =>
    obtain ⟨x, rest, hx, hrest, rfl⟩ := List.forall₂_cons_left_iff.mp (values_eq_some_iff.mp h)
    obtain ⟨ys, zs, hys, hzs, hprod⟩ := ih (values_eq_some_iff.mpr hrest)
    have hcons {us : List Tree} {us' : List K} (hus : v.values us = some us') : v.values (t :: us) = some (x :: us') := by
      simp [values, hx, hus]
    cases hp : p t with
    | true =>
      refine ⟨x :: ys, zs, by simpa [hp] using hcons hys, by simpa [hp] using hzs, ?_⟩
      rw [List.prod_cons, List.prod_cons, hprod, mul_assoc]
    | false =>
      refine ⟨ys, x :: zs, by simpa [hp] using hys, by simpa [hp] using hcons hzs, ?_⟩
      rw [List.prod_cons, List.prod_cons, hprod, mul_left_comm]

theorem exists_values_of_perm (hperm : ts.Perm us) (h : v.values ts = some xs) :
    ∃ ys, v.values us = some ys ∧ ys.prod = xs.prod := by
  obtain ⟨ys, hys, hperm⟩ := List.perm_comp_forall₂ hperm.symm (values_eq_some_iff.mp h)
  exact ⟨ys, values_eq_some_iff.mpr hys, hperm.prod_eq⟩

/-! ### What a value depends on -/

mutual

/-- The value of a tree depends on no symbol that does not occur in it. -/
theorem value_congr {v v' : Valuation K} (hpower : v.power = v'.power) (hfunction : v.function = v'.function) {t : Tree}
    (hsymbol : ∀ name, .symbol name ∈ t.nodes → v.symbol name = v'.symbol name) : v.value t = v'.value t := by
  match t with
  | .const value => rfl
  | .symbol name => exact congrArg some (hsymbol name (by simp [Tree.nodes]))
  | .paren content =>
    rw [value_paren, value_paren]
    exact value_congr hpower hfunction fun name hname => hsymbol name (by simp [Tree.nodes, hname])
  | .apply op args =>
    have hargs : v.values args = v'.values args := values_congr hpower hfunction fun t ht name hname =>
      hsymbol name (List.mem_cons_of_mem _ (Tree.mem_nodesAll.mpr ⟨t, ht, hname⟩))
    have hoperate : v.operate op = v'.operate op := by
      funext xs
      unfold operate
      rw [hpower, hfunction]
    rw [value, value, hargs, hoperate]

theorem values_congr {v v' : Valuation K} (hpower : v.power = v'.power) (hfunction : v.function = v'.function) {ts : List Tree}
    (hsymbol : ∀ t ∈ ts, ∀ name, .symbol name ∈ t.nodes → v.symbol name = v'.symbol name) : v.values ts = v'.values ts := by
  match ts with
  | [] => rfl
  | t :: ts =>
    rw [List.forall_mem_cons] at hsymbol
    rw [values, values, value_congr hpower hfunction hsymbol.1, values_congr hpower hfunction hsymbol.2]

end

/-- Without unknowns, the value depends on the symbols that name numbers only. -/
theorem value_of_isConstant {v v' : Valuation K} (hpower : v.power = v'.power) (hfunction : v.function = v'.function)
    (hnamed : ∀ name, Tree.isNamedConstant name = true → v.symbol name = v'.symbol name) (ht : t.isConstant = true) :
    v.value t = v'.value t := by
  refine value_congr hpower hfunction fun name hname => hnamed name ?_
  by_contra hunknown
  exact Tree.isConstant_eq_true_iff.mp ht name (Tree.mem_unknowns.mpr ⟨hname, by simpa using hunknown⟩)

end Valuation

namespace Tree

/-! ### The unknowns of the two parts of a term -/

variable {t u : Tree}

theorem mem_unknowns_productOf {ts : List Tree} {name : String} : name ∈ (productOf ts).unknowns ↔ ∃ t ∈ ts, name ∈ t.unknowns := by
  have hfold (t : Tree) (us : List Tree) : name ∈ (us.foldl (binary .mul) t).unknowns ↔ ∃ u ∈ t :: us, name ∈ u.unknowns := by
    induction us generalizing t with
    | nil => simp
    | cons u us ih => simp [ih, mem_unknowns_binary, or_assoc]
  cases ts with
  | nil => simp [productOf, unknowns_const]
  | cons t ts => exact hfold t ts

theorem isConstant_productOf {ts : List Tree} (h : ∀ t ∈ ts, t.isConstant = true) : (productOf ts).isConstant = true := by
  rw [isConstant_eq_true_iff]
  intro name hname
  obtain ⟨t, ht, hname⟩ := mem_unknowns_productOf.mp hname
  exact isConstant_eq_true_iff.mp (h t ht) name hname

theorem isConstant_cofactorOf (withinParens : Bool) (t : Tree) : (cofactorOf withinParens t).isConstant = true := by
  fun_induction cofactorOf withinParens t with
  | case1 content ih => exact ih
  | case3 withinParens t ih => exact isConstant_of_unknowns_subset (fun _ => mem_unknowns_of_negate) ih
  | case4 withinParens left right => exact isConstant_productOf fun f hf => by simpa using (List.mem_filter.mp hf).2
  | case5 withinParens left right hright ih =>
    rw [binary, isConstant_apply_two, isConstant_parenIf, isConstant_parenIf, isConstant_stripParens, isConstant_stripParens, ih, hright]
    rfl
  | case2 | case6 | case7 => rfl

theorem mem_unknowns_factorsFrom {name : String} : name ∈ t.unknowns ↔ ∃ f ∈ factorsFrom t, name ∈ f.unknowns := by
  fun_induction factorsFrom t with
  | case1 content ih => rw [unknowns_paren, ih]
  | case2 left right ihl ihr => simp [mem_unknowns_apply, ihl, ihr, or_and_right, exists_or]
  | case3 t => simp

/-- The unknowns of a term are those of its essence. -/
theorem mem_unknowns_essenceOf (withinParens : Bool) {name : String} :
    name ∈ t.unknowns ↔ ∃ f ∈ essenceOf withinParens t, name ∈ f.unknowns := by
  fun_induction essenceOf withinParens t with
  | case1 content ih => rw [unknowns_paren, ih]
  | case3 withinParens t ih => rw [mem_unknowns_apply, ← ih]; simp
  | case4 withinParens left right =>
    have hconstant {f : Tree} (hf : name ∈ f.unknowns) : f.isConstant = false := isConstant_eq_false hf
    rw [factors, mem_unknowns_factorsFrom]
    constructor
    · rintro ⟨f, hf, hname⟩
      exact ⟨f, List.mem_filter.mpr ⟨hf, by simp [hconstant hname]⟩, hname⟩
    · rintro ⟨f, hf, hname⟩
      exact ⟨f, List.mem_of_mem_filter hf, hname⟩
  | case5 withinParens left right hright ih =>
    rw [mem_unknowns_apply, ← ih]
    simp [isConstant_eq_true_iff.mp hright]
  | case2 | case6 | case7 => simp

/-- A term has the value of its essence times that of the rest. -/
theorem exists_value_essenceOf (withinParens : Bool) {K : Type} [Field K] [DecidableEq K] {v : Valuation K} {x : K}
    (h : v.value t = some x) :
    ∃ c ys, v.value (cofactorOf withinParens t) = some c ∧ v.values (essenceOf withinParens t) = some ys ∧ x = c * ys.prod := by
  have hwhole {t : Tree} {x : K} (h : v.value t = some x) :
      ∃ c ys, v.value (.const 1) = some c ∧ v.values [t] = some ys ∧ x = c * ys.prod :=
    ⟨1, [x], Valuation.value_const_one, by simp [Valuation.values, h], by simp⟩
  fun_induction essenceOf withinParens t generalizing x with
  | case1 content ih => exact ih (Valuation.value_paren.symm.trans h)
  | case2 withinParens content hwithin =>
    rw [cofactorOf, if_neg hwithin]
    exact hwhole h
  | case3 withinParens t ih =>
    rw [Valuation.value_apply_one] at h
    obtain ⟨y, hy, hneg⟩ := Option.bind_eq_some_iff.mp h
    obtain ⟨c, ys, hc, hys, rfl⟩ := ih hy
    refine ⟨-c, ys, by rw [cofactorOf, Valuation.value_negate, hc]; rfl, hys, ?_⟩
    rw [← Option.some.inj hneg, neg_mul]
  | case4 withinParens left right =>
    obtain ⟨xs, hxs, rfl⟩ := Valuation.exists_values_factorsFrom h
    obtain ⟨ys, zs, hys, hzs, hprod⟩ := Valuation.exists_values_filter (·.isConstant) hxs
    exact ⟨ys.prod, zs, Valuation.value_productOf hys, hzs, hprod⟩
  | case5 withinParens left right hright ih =>
    obtain ⟨g, d, k, hg, hd, hinverse, rfl⟩ := Valuation.value_quotient.mp h
    obtain ⟨c, ys, hc, hys, rfl⟩ := ih hg
    refine ⟨c * k, ys, ?_, hys, mul_right_comm ..⟩
    rw [cofactorOf, if_pos hright]
    exact Valuation.value_quotient.mpr ⟨c, d, k, by simpa using hc, by simpa using hd, hinverse, rfl⟩
  | case6 withinParens left right hright =>
    rw [cofactorOf, if_neg hright]
    exact hwhole h
  | case7 withinParens t hparen hsub hmul hdiv =>
    rw [cofactorOf]
    · exact hwhole h
    all_goals assumption

/-! ### Terms of one group -/

/-- The term is a multiple of the tree: it has the same unknowns, and wherever it has a value, this is the value of the tree
times that of its cofactor, which has no unknown; whatever the symbols, the powers and the calls stand for. -/
structure IsMultiple (g a : Tree) : Prop where
  unknowns : ∀ name, name ∈ g.unknowns ↔ name ∈ a.unknowns
  constant : a.cofactor.isConstant = true
  value : ∀ (K : Type) [Field K] [DecidableEq K] (v : Valuation K) (x : K), v.value a = some x →
    ∃ c y, v.value a.cofactor = some c ∧ v.value g = some y ∧ x = c * y

theorem isMultiple_of_perm {ts : List Tree} (h : t.essence.Perm ts) : IsMultiple (productOf ts) t where
  unknowns name := by
    rw [mem_unknowns_productOf, mem_unknowns_essenceOf (t := t) false]
    exact exists_congr fun f => and_congr_left fun _ => h.mem_iff.symm
  constant := isConstant_cofactorOf false t
  value K _ _ v x hx := by
    obtain ⟨c, ys, hc, hys, rfl⟩ := exists_value_essenceOf false hx
    obtain ⟨zs, hzs, hprod⟩ := Valuation.exists_values_of_perm h hys
    exact ⟨c, zs.prod, hc, Valuation.value_productOf hzs, by rw [hprod]⟩

/-- What has no unknown and counts as no number is in parentheses. -/
theorem exists_paren_of_isConstant (hconstant : t.isConstant = true) (hnumber : countsAsNumber false t = false) :
    ∃ content, t = .paren content := by
  cases t with
  | paren content => exact ⟨content, rfl⟩
  | const | symbol | apply => exact absurd (hnumber.symm.trans hconstant) Bool.false_ne_true

theorem countsAsNumber_of_likeness {key : String} (h : likeness t = .ok key) (hkey : key ≠ constantLikeness) :
    countsAsNumber false t = false := by
  rw [likeness, likenessOf_eq_ok_iff] at h
  split_ifs at h with hnumber
  · exact absurd h hkey
  · simpa using hnumber

theorem constructed_of_mem_termsFrom (h : t.stripParens.Constructed) (sign : Sign) :
    ∀ term ∈ termsFrom sign t, term.1.stripParens.Constructed := by
  induction sign, t using termsFrom.induct with
  | case1 sign left right ihl ihr | case2 sign left right ihl ihr =>
    have hoperands := h.operands
    rw [termsFrom]
    exact List.forall_mem_append.mpr ⟨ihl (hoperands left (by simp)), ihr (hoperands right (by simp))⟩
  | case3 sign t ih =>
    rw [termsFrom]
    exact ih (h.operands t (by simp))
  | case4 sign t hadd hsub hsign =>
    have hsummand : t.IsSummand := ⟨hadd, hsub, hsign⟩
    simpa [hsummand.termsFrom sign] using h

/-- Terms of one likeness other than that of the numbers are multiples of one tree, or the same term in parentheses. -/
theorem exists_isMultiple {key : String} {ts : List Tree} (hkey : key ≠ constantLikeness)
    (hts : ∀ t ∈ ts, t.stripParens.Constructed ∧ likeness t = .ok key) : ∃ g, (∀ t ∈ ts, IsMultiple g t) ∧
      (g.isConstant = true → ∀ t ∈ ts, t = g ∧ ∃ content, t = .paren content) := by
  cases ts with
  | nil => exact ⟨.const 1, by simp⟩
  | cons u ts =>
    obtain ⟨hu, hlikeness⟩ := hts u List.mem_cons_self
    have hnumber := countsAsNumber_of_likeness hlikeness hkey
    have hperm : ∀ t ∈ u :: ts, t.essence.Perm u.essence := fun t ht =>
      (likeness_eq_iff (hts t ht).1 hu (countsAsNumber_of_likeness (hts t ht).2 hkey) hnumber (hts t ht).2 hlikeness).mp rfl
    have hmultiple : ∀ t ∈ u :: ts, IsMultiple (productOf u.essence) t := fun t ht => isMultiple_of_perm (hperm t ht)
    refine ⟨productOf u.essence, hmultiple, fun hconstant t ht => ?_⟩
    have hparen : ∀ t ∈ u :: ts, ∃ content, t = .paren content := fun t ht =>
      exists_paren_of_isConstant (isConstant_of_unknowns_subset (fun name => ((hmultiple t ht).unknowns name).mpr) hconstant)
        (countsAsNumber_of_likeness (hts t ht).2 hkey)
    obtain ⟨inner, rfl⟩ := hparen u List.mem_cons_self
    obtain ⟨content, rfl⟩ := hparen t ht
    exact ⟨List.singleton_perm_singleton.mp (hperm _ ht), content, rfl⟩

/-! ### The detector -/

/-- Reported like terms are genuine: the terms of one pattern are multiples of one tree with the unknowns of each of them, which
has none only if the pattern reports one and the same term in parentheses; and the terms of all patterns are terms of the tree,
none of them in two patterns. -/
theorem likeTerms_genuine {patterns : List Pattern} (ht : t.Constructed) (h : t.likeTerms = .ok patterns) :
    (patterns.flatMap (·.affected)).Subperm (t.terms.map (·.1)) ∧
    patterns.Pairwise (fun p q => p.affected.Disjoint q.affected) ∧
    ∀ p ∈ patterns, ∃ g, (∀ a ∈ p.affected, IsMultiple g a) ∧
      (g.isConstant = true → ∀ a ∈ p.affected, a = g ∧ ∃ content, a = .paren content) := by
  obtain ⟨groups, hgroups, hreports⟩ := likeTerms_eq_ok_iff.mp h
  have hgrouping : IsGrouping t.terms groups := isGrouping_of_groupTerms isGrouping_nil hgroups
  have haffected := affected_of_reports hreports
  have hlike {g : TermGroup} (hg : g ∈ groups) {a : Tree} (ha : a ∈ g.members.map (·.1)) :
      a.stripParens.Constructed ∧ likeness a = .ok g.likeness := by
    obtain ⟨term, hterm, rfl⟩ := List.mem_map.mp ha
    rw [hgrouping.members g hg, List.mem_filter] at hterm
    exact ⟨constructed_of_mem_termsFrom (by rwa [ht.stripParens, ht.stripParens]) .plus term hterm.1, by simpa using hterm.2⟩
  refine ⟨?_, ?_, fun p hp => ?_⟩
  · have hterms : (groups.flatMap fun g => g.members.map (·.1)).Perm (t.terms.map (·.1)) := by
      rw [← List.map_flatMap]
      exact hgrouping.perm.map _
    rw [List.flatMap_def, haffected, ← List.flatMap_def]
    exact (List.filter_sublist.flatMap _).subperm.trans hterms.subperm
  · rw [← List.pairwise_map (f := Pattern.affected) (R := List.Disjoint), haffected, List.pairwise_map]
    have hdistinct : groups.Pairwise fun g g' => g.likeness ≠ g'.likeness := List.pairwise_map.mp hgrouping.distinct
    refine (hdistinct.filter _).imp_of_mem fun {g g'} hg hg' hne a ha ha' => hne ?_
    exact Except.ok.inj ((hlike (List.mem_of_mem_filter hg) ha).2.symm.trans (hlike (List.mem_of_mem_filter hg') ha').2)
  · obtain ⟨g, hg, hmembers⟩ := List.mem_map.mp (haffected ▸ List.mem_map_of_mem (f := Pattern.affected) hp)
    obtain ⟨hmem, hreported⟩ := List.mem_filter.mp hg
    have hkey : g.likeness ≠ constantLikeness := by
      simp only [TermGroup.isReported, Bool.and_eq_true, Bool.not_eq_true', beq_eq_false_iff_ne] at hreported
      exact hreported.1
    exact exists_isMultiple hkey fun a ha => hlike hmem (hmembers ▸ ha)

/-- Like terms in `x * sin(y)/2 - 3 * (sin(y) * x)`. -/
theorem likeTerms_genuine_quotient :
    let s := call "sin" [.symbol "y"]
    let t := binary .sub (binary .div (binary .mul (.symbol "x") s) (.const 2)) (binary .mul (.const 3) (binary .mul s (.symbol "x")))
    t.Constructed ∧ ∃ p, t.likeTerms = .ok [p] ∧ p.affected = t.terms.map (·.1) ∧
      ∃ g, g.isConstant = false ∧ ∀ a ∈ p.affected, IsMultiple g a := by
  intro s t
  have hx : (symbol "x").Constructed := .symbol (.inl ⟨'x', by decide, rfl⟩)
  have hy : (symbol "y").Constructed := .symbol (.inl ⟨'y', by decide, rfl⟩)
  have hcall : build (.call "sin") [.symbol "y"] = .ok s := rfl
  have hs : s.Constructed := .build (fun f hf => by cases hf; decide) (by simpa using hy) hcall
  have ht : t.Constructed := .binary rfl (.binary rfl (.binary rfl hx hs) (.integer 2)) (.binary rfl (.integer 3) (.binary rfl hs hx))
  have hpatterns : t.likeTerms = .ok [⟨.likeTerms, "The terms in sin(y)*x can be combined", t.terms.map (·.1),
      "x * sin(y)/2 - 3 * (sin(y) * x)"⟩] := by decide +kernel
  obtain ⟨-, -, hgenuine⟩ := likeTerms_genuine ht hpatterns
  obtain ⟨g, hmultiple, hparen⟩ := hgenuine _ (List.mem_singleton_self _)
  refine ⟨ht, _, hpatterns, rfl, g, ?_, hmultiple⟩
  refine Bool.eq_false_iff.mpr fun hconstant => ?_
  obtain ⟨-, content, hcontent⟩ := hparen hconstant _ List.mem_cons_self
  exact nomatch hcontent

/-- In `x + (-3) + (-3)` the number is reported twice as a like term, and it is no multiple of anything that depends on an
unknown. -/
theorem likeTerms_number :
    let t := binary .add (binary .add (.symbol "x") (.const (-3))) (.const (-3))
    t.Constructed ∧ (∃ p, t.likeTerms = .ok [p] ∧ p.affected = [.paren (.const (-3)), .paren (.const (-3))]) ∧
    ∀ g c : Tree, c.isConstant = true →
      (∀ (v : Valuation ℚ) (x : ℚ), v.value (.paren (.const (-3))) = some x →
        ∃ k y, v.value c = some k ∧ v.value g = some y ∧ x = k * y) →
      ∀ v v' : Valuation ℚ, v.power = v'.power → v.function = v'.function →
        (∀ name, isNamedConstant name = true → v.symbol name = v'.symbol name) → v.value g = v'.value g := by
  intro t
  have hx : (symbol "x").Constructed := .symbol (.inl ⟨'x', by decide, rfl⟩)
  have hnumber : (const (-3)).Constructed := .integer (-3)
  refine ⟨.binary rfl (.binary rfl hx hnumber) hnumber,
    ⟨⟨.likeTerms, "The terms in (-3) can be combined", _, "(-3) + (-3)"⟩, by decide +kernel, rfl⟩, ?_⟩
  intro g c hc hmultiple v v' hpower hfunction hnamed
  have hnumber (v : Valuation ℚ) : v.value (.paren (.const (-3))) = some (-3) := by simp [Valuation.value_const]
  obtain ⟨k, y, hk, hy, hproduct⟩ := hmultiple v (-3) (hnumber v)
  obtain ⟨k', y', hk', hy', hproduct'⟩ := hmultiple v' (-3) (hnumber v')
  obtain rfl : k = k' := by
    rw [Valuation.value_of_isConstant hpower hfunction hnamed hc, hk'] at hk
    exact Option.some.inj hk.symm
  have hne : k ≠ 0 := by
    rintro rfl
    norm_num at hproduct
  rw [hy, hy', mul_left_cancel₀ hne (hproduct.symm.trans hproduct')]

end Tree

end AlgebraTutor
