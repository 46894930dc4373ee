import AlgebraTutor.Proofs.Pattern.Layout

/-!
# Sums that are written plainly

No detector looks for parentheses, for exponents of zero and one, for factors out of order, or for a sign behind another. Where
none of these is written, and nothing is found at a node, the tree of a polynomial with integer coefficients is a layout: a power
is one of a letter, since arithmetic on numbers is found; a product has one number in front of powers of letters in their order;
and a sum has terms of this kind other than zero.
-/

namespace AlgebraTutor

namespace Tree

/-- Does the tree, read from the left, begin with a sign? -/
def hasLeadingSign : Tree → Bool
  | .const value => decide (value < 0)
  | .apply .sub [_] => true
  | .apply .mul [left, _] => left.hasLeadingSign
  | _ => false

/-- At no node of the tree is written what no detector looks for. -/
structure HasPlainNodes (t : Tree) : Prop where
  unparenthesized : ∀ content, .paren content ∉ t.nodes
  exponents : ∀ base n, .apply .pow [base, .const n] ∈ t.nodes → n ≠ 0 ∧ n ≠ 1
  factors : ∀ l r, .apply .mul [l, r] ∈ t.nodes → ∀ v ∈ l.unknowns, r.isConstant = false ∧ ∀ w ∈ r.unknowns, v < w
  signs : ∀ op l r, op = .add ∨ op = .sub → .apply op [l, r] ∈ t.nodes → r.hasLeadingSign = false

/-- The tree is made of integers, letters and `pi` without division, and at no node something is found or goes unnoticed. -/
structure IsFinished (t : Tree) : Prop where
  composed : t.Composed
  undivided : ∀ args, .apply .div args ∉ t.nodes
  plain : t.HasPlainNodes
  quiet : t.AllQuiet

variable {t l r : Tree} {op : Op}

/-! ### Operands -/

theorem eq_of_parenIf {needed : Bool} {a : Tree} (h : parenIf needed t = a) (ha : ∀ content, a ≠ .paren content) :
    needed = false ∧ t = a := by
  cases needed with
  | false => exact ⟨rfl, h⟩
  | true => exact absurd h.symm (ha t)

theorem Composed.operands (h : (apply op [l, r]).Composed) (hop : op.isArithmetic = true) (hl : ∀ content, l ≠ .paren content)
    (hr : ∀ content, r ≠ .paren content) :
    (l.Composed ∧ leftNeedsParen op l = false) ∧ r.Composed ∧ rightNeedsParen op r = false := by
  generalize hwhole : apply op [l, r] = whole at h
  cases h with
  | integer | letter | pi => simp at hwhole
  | build _ hargs hbuild =>
    rcases build_eq_ok hbuild with ⟨f, -, rfl⟩ | ⟨u, -, -, rfl⟩ | ⟨a, b, -, rfl, rfl⟩
    · obtain ⟨rfl, -⟩ := Tree.apply.inj hwhole
      simp [Op.isArithmetic] at hop
    · rcases negate_cases u with ⟨value, -, hvalue⟩ | hsign
      · simp [hvalue] at hwhole
      · simp [hsign] at hwhole
    · have ha := hargs a (by simp)
      have hb := hargs b (by simp)
      rw [Tree.binary, ha.stripParens, hb.stripParens] at hwhole
      obtain ⟨rfl, hoperands⟩ := Tree.apply.inj hwhole
      obtain ⟨hfirst, hlast⟩ := List.cons.inj hoperands
      obtain ⟨hleft, rfl⟩ := eq_of_parenIf hfirst.symm hl
      obtain ⟨hright, rfl⟩ := eq_of_parenIf (List.cons.inj hlast).1.symm hr
      exact ⟨⟨ha, hleft⟩, hb, hright⟩

theorem Composed.signed (h : (apply .sub [t]).Composed) (ht : ∀ content, t ≠ .paren content) :
    t.Composed ∧ 4 ≤ t.precedence ∧ ∀ value, t ≠ .const value := by
  generalize hwhole : apply .sub [t] = whole at h
  cases h with
  | integer | letter | pi => simp at hwhole
  | build _ hargs hbuild =>
    rcases build_eq_ok hbuild with ⟨f, -, rfl⟩ | ⟨u, -, rfl, rfl⟩ | ⟨a, b, -, -, rfl⟩
    · simp [call] at hwhole
    · have hu := hargs u (by simp)
      unfold Tree.negate at hwhole
      rw [hu.stripParens] at hwhole
      split at hwhole
      · simp at hwhole
      · rename_i hother
        obtain ⟨hneeded, rfl⟩ := eq_of_parenIf (List.cons.inj (Tree.apply.inj hwhole).2).1.symm ht
        exact ⟨hu, Nat.lt_of_not_le (of_decide_eq_false hneeded), hother⟩
    · simp [Tree.binary] at hwhole

theorem IsFinished.operand {args : List Tree} (h : (apply op args).IsFinished) {a : Tree} (ha : a ∈ args) (hcomposed : a.Composed) :
    a.IsFinished where
  composed := hcomposed
  undivided bs hmem := h.undivided bs (mem_nodes_of_operand ha hmem)
  plain :=
    { unparenthesized := fun content hmem => h.plain.unparenthesized content (mem_nodes_of_operand ha hmem)
      exponents := fun base n hmem => h.plain.exponents base n (mem_nodes_of_operand ha hmem)
      factors := fun l r hmem => h.plain.factors l r (mem_nodes_of_operand ha hmem)
      signs := fun op l r hop hmem => h.plain.signs op l r hop (mem_nodes_of_operand ha hmem) }
  quiet := (allQuiet_apply_iff.mp h.quiet).2 a ha

theorem IsFinished.not_paren {args : List Tree} (h : (apply op args).IsFinished) {a : Tree} (ha : a ∈ args) (content : Tree) :
    a ≠ .paren content := by
  rintro rfl
  exact h.plain.unparenthesized content (mem_nodes_of_operand ha (mem_nodes_self _))

theorem IsFinished.operands (h : (apply op [l, r]).IsFinished) (hop : op.isArithmetic = true) :
    (l.IsFinished ∧ leftNeedsParen op l = false) ∧ r.IsFinished ∧ rightNeedsParen op r = false := by
  obtain ⟨⟨hl, hleft⟩, hr, hright⟩ := h.composed.operands hop (h.not_paren (by simp)) (h.not_paren (by simp))
  exact ⟨⟨h.operand (by simp) hl, hleft⟩, h.operand (by simp) hr, hright⟩

theorem IsFinished.signed (h : (apply .sub [t]).IsFinished) : t.IsFinished ∧ 4 ≤ t.precedence ∧ ∀ value, t ≠ .const value := by
  obtain ⟨ht, hprecedence, hvalue⟩ := h.composed.signed (h.not_paren (by simp))
  exact ⟨h.operand (by simp) ht, hprecedence, hvalue⟩

theorem IsFinished.isQuiet {args : List Tree} (h : (apply op args).IsFinished) : (apply op args).IsQuiet :=
  (allQuiet_apply_iff.mp h.quiet).1

/-! ### Arithmetic on numbers -/

/-- An operator is not written between numbers like a number. -/
theorem chars_ne_of_operator (hop : op = .add ∨ op = .sub ∨ op = .mul ∨ op = .pow) {a b : Rat} {n : Int} {cs : List Char}
    (hcs : (apply op [.const a, .const b]).chars = .ok cs) : (const n).chars ≠ .ok cs := by
  intro hn
  have harithmetic : op.isArithmetic = true := by rcases hop with rfl | rfl | rfl | rfl <;> rfl
  obtain ⟨implicit, himplicit, ds, -, es, -, rfl⟩ := (chars_operator_eq_ok_iff harithmetic).mp hcs
  have hexplicit : implicit = false := by
    split_ifs at himplicit
    · exact (Except.ok.inj himplicit).symm
    · exact (Except.ok.inj himplicit).symm
  subst hexplicit
  have hseparator : ∃ c ∈ separator false op, c = ' ' ∨ c = '^' := by
    rcases hop with rfl | rfl | rfl | rfl
    all_goals simp [separator]
  obtain ⟨c, hc, hspecial⟩ := hseparator
  have hdigit := mem_digits_of_mem_chars hn (List.mem_append_right ds (List.mem_append_left es hc))
  rcases hspecial with rfl | rfl <;> simp at hdigit

theorem toTree_const (n : Int) : (Polynomial.const n).toTree = .const n := by
  rw [Polynomial.const]
  split_ifs with hzero
  · rw [hzero]
    rfl
  · have hlayout : Polynomial.toTree [(Monomial.one, (n : Rat))] = ofRat n := rfl
    rw [hlayout, ofRat, if_pos (Rat.den_intCast n), Rat.num_intCast]

/-- Arithmetic on integers is found. -/
theorem not_isQuiet_integers (hop : op = .add ∨ op = .sub ∨ op = .mul ∨ op = .pow) {a b : Rat} {n : Int}
    (h : (apply op [.const a, .const b]).Denotes (MvPolynomial.C (n : ℚ))) : ¬(apply op [.const a, .const b]).IsQuiet := by
  intro hquiet
  have hsimplify : (apply op [.const a, .const b]).simplify = .ok (.const n) := by
    rw [← toTree_const]
    exact simplify_of_denotes (Polynomial.canonical_const n) (Polynomial.toMv_const (n : ℚ) ▸ h)
  have harithmetic := hquiet.arithmetic
  rw [constantArithmeticAt, show (apply op [.const a, .const b]).isNumberOperation = true from rfl, Bool.not_true,
    if_neg Bool.false_ne_true] at harithmetic
  obtain ⟨before, hbefore, hrest⟩ := Answer.bind_eq_ok_iff.mp harithmetic
  obtain ⟨simple, hsimple, hcompared⟩ := Answer.bind_eq_ok_iff.mp hrest
  obtain ⟨after, hafter, hfound⟩ := Answer.bind_eq_ok_iff.mp hcompared
  obtain rfl := Except.ok.inj (hsimplify.symm.trans hsimple)
  split_ifs at hfound with hsame
  · subst hsame
    obtain ⟨cs, hcs, rfl⟩ := Answer.map_eq_ok_iff.mp hbefore
    obtain ⟨ds, hds, heq⟩ := Answer.map_eq_ok_iff.mp hafter
    obtain rfl := String.ofList_inj.mp heq
    exact chars_ne_of_operator hop hcs hds
  · simp at hfound

theorem IsFinished.integer_operands (h : (apply op [l, r]).IsFinished) (hop : op.isArithmetic = true)
    (hconstant : (apply op [l, r]).isConstant = true) (hl : l.IsFinished → l.isConstant = true → ∃ n : Int, l = .const n)
    (hr : r.IsFinished → r.isConstant = true → ∃ n : Int, r = .const n) : ∃ a b : Int, l = .const a ∧ r = .const b := by
  obtain ⟨⟨hleft, -⟩, hright, -⟩ := h.operands hop
  obtain ⟨a, ha⟩ := hl hleft (isConstant_of_unknowns_subset (fun v hv => mem_unknowns_apply.mpr ⟨l, by simp, hv⟩) hconstant)
  obtain ⟨b, hb⟩ := hr hright (isConstant_of_unknowns_subset (fun v hv => mem_unknowns_apply.mpr ⟨r, by simp, hv⟩) hconstant)
  exact ⟨a, b, ha, hb⟩

/-- What has no unknown is a number. -/
theorem IsFinished.exists_integer {f : MvPolynomial String ℚ} (h : t.IsFinished) (hf : t.Denotes f) (hconstant : t.isConstant = true) :
    ∃ n : Int, t = .const n := by
  induction hf with
  | const value =>
    obtain ⟨n, rfl, -⟩ := h.composed.exists_integer rfl
    exact ⟨n, rfl⟩
  | symbol hname => simp [isConstant, unknowns, nodes, hname, unknowns.insertName] at hconstant
  | @paren t => exact absurd (mem_nodes_self _) (h.plain.unparenthesized t)
  | neg ht ih =>
    obtain ⟨hfinished, -, hvalue⟩ := h.signed
    have hinner := isConstant_of_unknowns_subset (fun v hv => mem_unknowns_apply.mpr ⟨_, List.mem_singleton_self _, hv⟩) hconstant
    obtain ⟨n, rfl⟩ := ih hfinished hinner
    exact absurd rfl (hvalue n)
  | div => exact absurd (mem_nodes_self _) (h.undivided _)
  | add ht hu iht ihu =>
    obtain ⟨a, b, rfl, rfl⟩ := h.integer_operands rfl hconstant iht ihu
    have hvalue := Denotes.add (.const (a : ℚ)) (.const (b : ℚ))
    rw [← map_add, ← Int.cast_add] at hvalue
    exact absurd h.isQuiet (not_isQuiet_integers (.inl rfl) hvalue)
  | sub ht hu iht ihu =>
    obtain ⟨a, b, rfl, rfl⟩ := h.integer_operands rfl hconstant iht ihu
    have hvalue := Denotes.sub (.const (a : ℚ)) (.const (b : ℚ))
    rw [← map_sub, ← Int.cast_sub] at hvalue
    exact absurd h.isQuiet (not_isQuiet_integers (.inr (.inl rfl)) hvalue)
  | mul ht hu iht ihu =>
    obtain ⟨a, b, rfl, rfl⟩ := h.integer_operands rfl hconstant iht ihu
    have hvalue := Denotes.mul (.const (a : ℚ)) (.const (b : ℚ))
    rw [← map_mul, ← Int.cast_mul] at hvalue
    exact absurd h.isQuiet (not_isQuiet_integers (.inr (.inr (.inl rfl))) hvalue)
  | @pow _ _ _ n ht hu hexponent iht ihu =>
    obtain ⟨a, b, rfl, rfl⟩ := h.integer_operands rfl hconstant iht ihu
    have hvalue := Denotes.pow (.const (a : ℚ)) hu hexponent
    rw [← map_pow, ← Int.cast_pow] at hvalue
    exact absurd h.isQuiet (not_isQuiet_integers (.inr (.inr (.inr rfl))) hvalue)

/-- An operator has an unknown. -/
theorem IsFinished.isConstant_apply {args : List Tree} {f : MvPolynomial String ℚ} (h : (apply op args).IsFinished)
    (hf : (apply op args).Denotes f) : (apply op args).isConstant = false := by
  rw [Bool.eq_false_iff]
  intro hconstant
  obtain ⟨n, hn⟩ := h.exists_integer hf hconstant
  simp at hn

theorem IsFinished.isUnknown {name : String} (h : (symbol name).IsFinished) (hname : isNamedConstant name = false) : IsUnknown name := by
  have hcomposed := h.composed
  generalize hwhole : symbol name = whole at hcomposed
  cases hcomposed with
  | integer => simp at hwhole
  | letter c hc => exact ⟨⟨c, hc, symbol.inj hwhole⟩, hname⟩
  | pi =>
    obtain rfl := symbol.inj hwhole
    exact absurd hname (by decide)
  | build _ _ hbuild =>
    rcases build_eq_ok hbuild with ⟨f, -, rfl⟩ | ⟨u, -, -, rfl⟩ | ⟨a, b, -, -, rfl⟩
    · simp [call] at hwhole
    · rcases negate_cases u with ⟨value, -, hvalue⟩ | hsign
      · simp [hvalue] at hwhole
      · simp [hsign] at hwhole
    · simp [binary] at hwhole

/-! ### Powers -/

/-- What binds like a power is a number without a sign, or a power of a letter. -/
theorem IsFinished.factor {f : MvPolynomial String ℚ} (h : t.IsFinished) (hf : t.Denotes f) (hprecedence : 4 ≤ t.precedence) :
    (∃ n : Int, 0 ≤ n ∧ t = .const n) ∨ ∃ g : String × Nat, IsUnknown g.1 ∧ 0 < g.2 ∧ t = Monomial.factorTree g := by
  cases hf with
  | const value =>
    obtain ⟨n, rfl, -⟩ := h.composed.exists_integer rfl
    refine .inl ⟨n, ?_, rfl⟩
    by_contra hneg
    rw [precedence, if_pos (by exact_mod_cast not_le.mp hneg)] at hprecedence
    exact absurd hprecedence (by decide)
  | @symbol name hname => exact .inr ⟨(name, 1), h.isUnknown hname, Nat.one_pos, rfl⟩
  | @paren t => exact absurd (mem_nodes_self _) (h.plain.unparenthesized t)
  | @pow l r g n hl hr hexponent =>
    obtain ⟨⟨hlfinished, hleft⟩, hrfinished, -⟩ := h.operands rfl
    obtain ⟨k, rfl⟩ := hrfinished.exists_integer hr hexponent
    have hatom : 4 < l.precedence := by
      rw [leftNeedsParen, if_pos rfl] at hleft
      exact Nat.lt_of_not_le (of_decide_eq_false hleft)
    have hvalue : (k : ℚ) = n := MvPolynomial.C_injective _ _ ((Denotes.const (k : ℚ)).unique hr)
    have hnatural : k = n := by exact_mod_cast hvalue
    subst hnatural
    cases hl with
    | const value =>
      have hconstant : (apply .pow [.const value, .const ((n : ℤ) : ℚ)]).isConstant = true := rfl
      rw [h.isConstant_apply (.pow (.const value) hr hexponent)] at hconstant
      exact absurd hconstant Bool.false_ne_true
    | @symbol name hname =>
      obtain ⟨hzero, hone⟩ := h.plain.exponents _ _ (mem_nodes_self _)
      have hn : n ≠ 0 ∧ n ≠ 1 := ⟨by rintro rfl; simp at hzero, by rintro rfl; simp at hone⟩
      refine .inr ⟨(name, n), hlfinished.isUnknown hname, Nat.pos_of_ne_zero hn.1, ?_⟩
      rw [Monomial.factorTree, if_neg hn.2, binary_power, Int.cast_natCast]
    | @paren t => exact absurd (mem_nodes_self _) (hlfinished.plain.unparenthesized t)
    | neg | add | sub | mul | div | pow => simp [precedence, Op.precedence, signPrecedence] at hatom
  | neg | add | sub | mul | div => simp [precedence, Op.precedence, signPrecedence] at hprecedence

end Tree

/-! ### Products -/

namespace Polynomial

open AlgebraTutor.Tree (IsUnknown)
open AlgebraTutor.Monomial (factorTree)

variable {m : Monomial}

theorem foldl_concat {t : Tree} (us : List Tree) (u : Tree) :
    (us ++ [u]).foldl (Tree.binary .mul) t = .binary .mul (us.foldl (Tree.binary .mul) t) u := by
  rw [List.foldl_append, List.foldl_cons, List.foldl_nil]

theorem termTree_integer (hne : m ≠ []) (c : Int) : termTree m c = Tree.integerMultiple c m.toTrees := by
  rw [termTree, if_neg (by simpa using hne)]
  simp

/-- A product with one more factor. -/
theorem termTree_concat (hne : m ≠ []) (c : Int) (g : String × Nat) :
    termTree (m ++ [g]) c = .binary .mul (termTree m c) (factorTree g) := by
  obtain ⟨f, m, rfl⟩ := List.exists_cons_of_ne_nil hne
  have htrees : Monomial.toTrees (f :: m ++ [g]) = factorTree f :: (Monomial.toTrees m ++ [factorTree g]) := by simp [Monomial.toTrees]
  rw [termTree_integer (by simp), termTree_integer hne, htrees]
  have hcons : Monomial.toTrees (f :: m) = factorTree f :: Monomial.toTrees m := rfl
  rw [hcons]
  unfold Tree.integerMultiple
  split_ifs
  · exact foldl_concat _ _
  · exact foldl_concat _ _
  · exact foldl_concat (factorTree f :: Monomial.toTrees m) _

/-- A number in front of one factor. -/
theorem termTree_coefficient {c : Int} (hc : Tree.IsCoefficient c) (g : String × Nat) :
    termTree [g] c = .binary .mul (.const c) (factorTree g) := by
  have hone : c ≠ 1 := fun h => hc.2.1 (by rw [h, Int.cast_one])
  have hminus : c ≠ -1 := fun h => hc.2.2 (by rw [h, Int.cast_neg, Int.cast_one])
  rw [termTree_integer (by simp), Tree.integerMultiple, if_neg hone, if_neg hminus]
  rfl

theorem hasLeadingSign_foldl_mul {t : Tree} (hplain : t.stripParens = t) (hprecedence : 2 ≤ t.precedence)
    (h : t.hasLeadingSign = true) (us : List Tree) : (us.foldl (Tree.binary .mul) t).hasLeadingSign = true := by
  induction us generalizing t with
  | nil => exact h
  | cons u us ih =>
    have hproduct : (Tree.binary .mul t u).IsUnsigned := Tree.isUnsigned_product (.inl rfl) t u
    refine ih (t := Tree.binary .mul t u) rfl hproduct.1 ?_
    rw [Tree.binary_product (.inl rfl) hplain hprecedence, Tree.hasLeadingSign, h]

/-- A product with a negative number in front begins with a sign. -/
theorem hasLeadingSign_termTree (hm : ∀ f ∈ m, IsUnknown f.1) {c : Int} (hc : c < 0) : (termTree m c).hasLeadingSign = true := by
  have hconst : (Tree.const c).hasLeadingSign = true := decide_eq_true (by exact_mod_cast hc)
  by_cases hempty : m = []
  · subst hempty
    simpa [termTree, Tree.ofRat] using hconst
  · obtain ⟨f, m, rfl⟩ := List.exists_cons_of_ne_nil hempty
    have hnegated := (isFactor_factorTree (hm f List.mem_cons_self)).isNegated
    rw [termTree_integer hempty, Tree.integerMultiple, if_neg (by omega)]
    split_ifs
    · refine hasLeadingSign_foldl_mul hnegated.plain.2 hnegated.precedence.2 ?_ _
      rw [(isFactor_factorTree (hm f List.mem_cons_self)).negate, Tree.hasLeadingSign]
    · exact hasLeadingSign_foldl_mul rfl (Tree.two_le_precedence_const _) hconst _

end Polynomial

namespace Tree

open AlgebraTutor.Polynomial (termTree isFactor_factorTree)

variable {t l r : Tree} {op : Op}

theorem mem_unknowns_factorTree {g : String × Nat} (hg : IsUnknown g.1) : g.1 ∈ (Monomial.factorTree g).unknowns := by
  have hsymbol : g.1 ∈ (symbol g.1).unknowns := mem_unknowns.mpr ⟨by simp [nodes], hg.2⟩
  unfold Monomial.factorTree
  split_ifs
  · exact hsymbol
  · exact mem_unknowns_binary.mpr (.inl hsymbol)

/-- A number in front of a factor is one that is needed. -/
theorem IsQuiet.isCoefficient {value : Rat} {u : Tree} (h : (apply .mul [.const value, u]).IsQuiet) (hu : IsFactor u) :
    IsCoefficient value := by
  have hnumber : (apply .mul [.const value, u]).isNumberOperation = false := by simp [isNumberOperation, hu.isNumber]
  have hidle := ((isQuiet_iff hnumber).mp h).2
  rw [hasIdleNumber, Bool.eq_false_iff, Ne, hasNumber_eq_true_iff] at hidle
  refine ⟨?_, ?_, ?_⟩ <;>
  · rintro rfl
    exact hidle ⟨_, List.mem_cons_self, _, rfl, by decide⟩

/-- The tree is a number, or the term of a monomial with a coefficient other than zero. -/
def IsFinishedTerm (t : Tree) : Prop :=
  ∃ (m : Monomial) (c : Int), t = termTree m c ∧ m.Canonical ∧ (∀ g ∈ m, IsUnknown g.1) ∧ (m ≠ [] → c ≠ 0)

theorem termTree_number (n : Int) : termTree [] n = const n := by
  simp [termTree, ofRat]

theorem isFinishedTerm_const (n : Int) : (const n).IsFinishedTerm :=
  ⟨[], n, (termTree_number n).symm, Monomial.canonical_nil, by simp, by simp⟩

theorem isFinishedTerm_single {g : String × Nat} {c : Int} (hg : IsUnknown g.1) (hpositive : 0 < g.2) (hc : c ≠ 0) :
    (termTree [g] c).IsFinishedTerm :=
  ⟨[g], c, rfl, Monomial.canonical_cons.mpr ⟨by simp, hpositive, Monomial.canonical_nil⟩, by simpa using hg, fun _ => hc⟩

theorem isFinishedTerm_concat {m : Monomial} {g : String × Nat} {c : Int} (hm : m.Canonical) (hunknowns : ∀ f ∈ m, IsUnknown f.1)
    (hg : IsUnknown g.1) (hpositive : 0 < g.2) (hlater : ∀ f ∈ m, f.1 < g.1) (hc : c ≠ 0) :
    (termTree (m ++ [g]) c).IsFinishedTerm := by
  refine ⟨m ++ [g], c, rfl, ⟨List.pairwise_append.mpr ⟨hm.increasing, List.pairwise_singleton _ g, ?_⟩, ?_⟩, ?_, fun _ => hc⟩
  · simpa using hlater
  · exact List.forall_mem_append.mpr ⟨hm.positive, List.forall_mem_singleton.mpr hpositive⟩
  · exact List.forall_mem_append.mpr ⟨hunknowns, List.forall_mem_singleton.mpr hg⟩

theorem IsFinished.isFinishedTerm_of_power {f : MvPolynomial String ℚ} (h : t.IsFinished) (hf : t.Denotes f)
    (hprecedence : 4 ≤ t.precedence) : t.IsFinishedTerm := by
  rcases h.factor hf hprecedence with ⟨n, -, rfl⟩ | ⟨g, hg, hpositive, rfl⟩
  · exact isFinishedTerm_const n
  · have hterm : Monomial.factorTree g = termTree [g] ((1 : Int) : Rat) := by
      simp [termTree, integerMultiple, productOf, Monomial.toTrees]
    exact hterm ▸ isFinishedTerm_single hg hpositive one_ne_zero

theorem IsFinished.isFinishedTerm_sign {f : MvPolynomial String ℚ} (h : (apply .sub [t]).IsFinished) (hf : t.Denotes f) :
    (apply .sub [t]).IsFinishedTerm := by
  obtain ⟨hfinished, hpower, hvalue⟩ := h.signed
  rcases hfinished.factor hf hpower with ⟨n, -, rfl⟩ | ⟨g, hg, hpositive, rfl⟩
  · exact absurd rfl (hvalue n)
  · have hterm : termTree [g] ((-1 : Int) : Rat) = apply .sub [Monomial.factorTree g] := by
      rw [Polynomial.termTree_integer (by simp), integerMultiple, if_neg (by decide), if_pos rfl, ← (isFactor_factorTree hg).negate]
      rfl
    exact hterm ▸ isFinishedTerm_single hg hpositive (by decide)

/-- A term times what binds like a power is a term: a number may follow numbers only, and arithmetic on numbers is found. -/
theorem IsFinished.isFinishedTerm_mul {f g : MvPolynomial String ℚ} (h : (apply .mul [l, r]).IsFinished) (hl : l.Denotes f)
    (hr : r.Denotes g) (hleft : l.IsFinishedTerm) (hproduct : 2 ≤ l.precedence) (hpower : 4 ≤ r.precedence) :
    (apply .mul [l, r]).IsFinishedTerm := by
  obtain ⟨⟨hlfinished, -⟩, hrfinished, -⟩ := h.operands rfl
  rcases hrfinished.factor hr hpower with ⟨n, -, rfl⟩ | ⟨g, hg, hpositive, rfl⟩
  · have hlconstant : l.isConstant = true := by
      rw [isConstant, List.isEmpty_iff, List.eq_nil_iff_forall_not_mem]
      intro v hv
      exact absurd (h.plain.factors l _ (mem_nodes_self _) v hv).1 (by simp [isConstant, unknowns_const])
    obtain ⟨k, rfl⟩ := hlfinished.exists_integer hl hlconstant
    have hconstant : (apply .mul [.const k, .const n]).isConstant = true := rfl
    rw [h.isConstant_apply (.mul hl hr)] at hconstant
    exact absurd hconstant Bool.false_ne_true
  · have hfactor := isFactor_factorTree hg
    obtain ⟨m, c, rfl, hm, hunknowns, hnonzero⟩ := hleft
    rw [← binary_times hlfinished.composed.stripParens hproduct hfactor]
    by_cases hempty : m = []
    · subst hempty
      rw [termTree_number] at h ⊢
      have hcoefficient := h.isQuiet.isCoefficient hfactor
      rw [← Polynomial.termTree_coefficient hcoefficient]
      exact isFinishedTerm_single hg hpositive (by simpa using hcoefficient.1)
    · have hc : (c : ℚ) ≠ 0 := by exact_mod_cast hnonzero hempty
      have hlater : ∀ f ∈ m, f.1 < g.1 := fun f hf =>
        (h.plain.factors _ _ (mem_nodes_self _) f.1 (Polynomial.mem_unknowns_termTree hc hm hunknowns hf)).2 g.1
          (mem_unknowns_factorTree hg)
      rw [← Polynomial.termTree_concat hempty]
      exact isFinishedTerm_concat hm hunknowns hg hpositive hlater (hnonzero hempty)

/-- What binds like a product is the term of a monomial, or a number. -/
theorem IsFinished.product {f : MvPolynomial String ℚ} (h : t.IsFinished) (hf : t.Denotes f) (hprecedence : 2 ≤ t.precedence) :
    t.IsFinishedTerm := by
  induction hf with
  | const value =>
    obtain ⟨n, rfl, -⟩ := h.composed.exists_integer rfl
    exact isFinishedTerm_const n
  | symbol hname => exact h.isFinishedTerm_of_power (.symbol hname) (by simp [precedence, atomPrecedence])
  | @paren t => exact absurd (mem_nodes_self _) (h.plain.unparenthesized t)
  | neg ht => exact h.isFinishedTerm_sign ht
  | pow hl hr hexponent => exact h.isFinishedTerm_of_power (.pow hl hr hexponent) (by simp [precedence, Op.precedence])
  | @mul l r _ _ hl hr ihl _ =>
    obtain ⟨⟨hlfinished, hleft⟩, -, hright⟩ := h.operands rfl
    have hproduct : 2 ≤ l.precedence := by
      rw [leftNeedsParen, if_neg (by decide)] at hleft
      exact Nat.le_of_not_lt (of_decide_eq_false hleft)
    have hpower : 4 ≤ r.precedence := by
      rw [rightNeedsParen, if_neg (by decide), Bool.or_eq_false_iff] at hright
      have hunsigned : r.precedence ≠ 3 := of_decide_eq_false hright.1
      have htight : ¬r.precedence ≤ 2 := of_decide_eq_false hright.2
      omega
    exact h.isFinishedTerm_mul hl hr (ihl hlfinished hproduct) hproduct hpower
  | add | sub => simp [precedence, Op.precedence] at hprecedence
  | div => exact absurd (mem_nodes_self _) (h.undivided _)

end Tree

/-! ### Sums -/

namespace Polynomial

variable {m : Monomial} {c : Rat} {l : List (Monomial × Rat)}

theorem appendTerms_concat (t : Tree) (l : List (Monomial × Rat)) (m : Monomial) (c : Rat) :
    appendTerms t (l ++ [(m, c)]) =
      if c < 0 then .binary .sub (appendTerms t l) (termTree m (-c)) else .binary .add (appendTerms t l) (termTree m c) := by
  induction l generalizing t with
  | nil => rfl
  | cons s l ih =>
    rw [List.cons_append, appendTerms, ih]
    rfl

/-- A layout with one more term. -/
theorem layout_concat (hne : l ≠ []) (m : Monomial) (c : Rat) :
    layout (l ++ [(m, c)]) =
      if c < 0 then .binary .sub (layout l) (termTree m (-c)) else .binary .add (layout l) (termTree m c) := by
  obtain ⟨s, l, rfl⟩ := List.exists_cons_of_ne_nil hne
  exact appendTerms_concat _ _ _ _

/-- What it takes for a term to stand in a layout. -/
structure IsTermOf (s : Monomial × Rat) : Prop where
  nonzero : s.2 ≠ 0
  monomial : s.1.Canonical
  unknowns : ∀ f ∈ s.1, Tree.IsUnknown f.1

end Polynomial

namespace Tree

open AlgebraTutor.Polynomial (layout termTree IsTermOf)

variable {t l r : Tree} {op : Op}

/-- The last operand of a sum is a term without a sign, and what stands before is not zero. -/
theorem IsFinished.lastTerm {f : MvPolynomial String ℚ} (hop : op = .add ∨ op = .sub) (h : (apply op [l, r]).IsFinished)
    (hf : (apply op [l, r]).Denotes f) {g : MvPolynomial String ℚ} (hr : r.Denotes g) :
    apply op [l, r] = binary op l r ∧ l ≠ .const 0 ∧
      ∃ (m : Monomial) (c : Int), r = termTree m c ∧ 0 < c ∧ m.Canonical ∧ ∀ g ∈ m, IsUnknown g.1 := by
  have harithmetic : op.isArithmetic = true := by rcases hop with rfl | rfl <;> rfl
  obtain ⟨⟨hlfinished, hleft⟩, hrfinished, hright⟩ := h.operands harithmetic
  have hbinary : apply op [l, r] = binary op l r := by
    rw [binary, hlfinished.composed.stripParens, hrfinished.composed.stripParens, hleft, hright]
    rfl
  have hprecedence : r.precedence ≠ 3 ∧ 2 ≤ r.precedence := by
    rw [rightNeedsParen, if_neg (by rcases hop with rfl | rfl <;> decide), Bool.or_eq_false_iff] at hright
    have hunsigned : r.precedence ≠ 3 := of_decide_eq_false hright.1
    have hsum : op.precedence = 1 := by rcases hop with rfl | rfl <;> rfl
    have htight : ¬r.precedence ≤ op.precedence := of_decide_eq_false hright.2
    omega
  have hnumber : (apply op [l, r]).isNumberOperation = false := by
    rw [Bool.eq_false_iff]
    intro hnumbers
    rw [isNumberOperation, List.all_eq_true] at hnumbers
    obtain ⟨a, ha⟩ := isNumber_eq_true_iff.mp (hnumbers l (by simp))
    obtain ⟨b, hb⟩ := isNumber_eq_true_iff.mp (hnumbers r (by simp))
    obtain rfl := hlfinished.composed.stripParens.symm.trans ha
    obtain rfl := hrfinished.composed.stripParens.symm.trans hb
    have hconstant : (apply op [.const a, .const b]).isConstant = true := rfl
    rw [h.isConstant_apply hf] at hconstant
    exact Bool.false_ne_true hconstant
  have hzero : ∀ a ∈ [l, r], a ≠ .const 0 := by
    rintro a ha rfl
    have hidle : (apply op [l, r]).hasIdleNumber = hasNumber (· == 0) [l, r] := by rcases hop with rfl | rfl <;> rfl
    have hneeded := ((isQuiet_iff hnumber).mp h.isQuiet).2
    rw [hidle, Bool.eq_false_iff] at hneeded
    exact hneeded (hasNumber_eq_true_iff.mpr ⟨_, ha, 0, rfl, rfl⟩)
  obtain ⟨m, c, rfl, hm, hunknowns, hnonzero⟩ := hrfinished.product hr hprecedence.2
  refine ⟨hbinary, hzero l (by simp), m, c, rfl, ?_, hm, hunknowns⟩
  rcases lt_trichotomy c 0 with hneg | rfl | hpos
  · have hsign := h.plain.signs op l _ hop (mem_nodes_self _)
    rw [Polynomial.hasLeadingSign_termTree hunknowns hneg] at hsign
    exact absurd hsign.symm Bool.false_ne_true
  · obtain rfl : m = [] := by_contra fun hne => hnonzero hne rfl
    have hconst : termTree [] ((0 : Int) : Rat) = .const 0 := termTree_number 0
    exact absurd hconst (hzero _ (by simp))
  · exact hpos

/-- A tree at whose nodes nothing is found and nothing goes unnoticed is a layout. -/
theorem IsFinished.exists_layout {f : MvPolynomial String ℚ} (h : t.IsFinished) (hf : t.Denotes f) :
    ∃ l : List (Monomial × Rat), t = layout l ∧ ∀ s ∈ l, IsTermOf s := by
  have hproduct {t : Tree} {f : MvPolynomial String ℚ} (h : t.IsFinished) (hf : t.Denotes f) (hprecedence : 2 ≤ t.precedence) :
      ∃ l : List (Monomial × Rat), t = layout l ∧ ∀ s ∈ l, IsTermOf s := by
    obtain ⟨m, c, rfl, hm, hunknowns, hnonzero⟩ := h.product hf hprecedence
    by_cases hc : c = 0
    · obtain rfl : m = [] := by_contra fun hne => hnonzero hne hc
      subst hc
      exact ⟨[], by simp [layout, termTree, ofRat], by simp⟩
    · have hvalue : (c : ℚ) ≠ 0 := by exact_mod_cast hc
      exact ⟨[(m, c)], rfl, List.forall_mem_singleton.mpr ⟨hvalue, hm, hunknowns⟩⟩
  induction hf with
  | const value => exact hproduct h (.const value) (two_le_precedence_const value)
  | symbol hname => exact hproduct h (.symbol hname) (by simp [precedence, atomPrecedence])
  | paren ht => exact absurd (mem_nodes_self _) (h.plain.unparenthesized _)
  | neg ht => exact hproduct h (.neg ht) (by simp [precedence, signPrecedence])
  | mul hl hr => exact hproduct h (.mul hl hr) (by simp [precedence, Op.precedence])
  | div => exact absurd (mem_nodes_self _) (h.undivided _)
  | pow hl hr hexponent => exact hproduct h (.pow hl hr hexponent) (by simp [precedence, Op.precedence])
  | add hl hr ihl _ =>
    obtain ⟨hbinary, hzero, m, c, rfl, hc, hm, hunknowns⟩ := h.lastTerm (.inl rfl) (.add hl hr) hr
    obtain ⟨l, rfl, hterms⟩ := ihl (h.operands rfl).1.1
    have hne : l ≠ [] := fun hnil => hzero (by rw [hnil]; rfl)
    have hpos : (0 : ℚ) < c := by exact_mod_cast hc
    refine ⟨l ++ [(m, (c : ℚ))], ?_, List.forall_mem_append.mpr ⟨hterms, List.forall_mem_singleton.mpr ⟨hpos.ne', hm, hunknowns⟩⟩⟩
    rw [Polynomial.layout_concat hne, if_neg hpos.le.not_gt, hbinary]
  | sub hl hr ihl _ =>
    obtain ⟨hbinary, hzero, m, c, rfl, hc, hm, hunknowns⟩ := h.lastTerm (.inr rfl) (.sub hl hr) hr
    obtain ⟨l, rfl, hterms⟩ := ihl (h.operands rfl).1.1
    have hne : l ≠ [] := fun hnil => hzero (by rw [hnil]; rfl)
    have hneg : -(c : ℚ) < 0 := by exact_mod_cast neg_neg_of_pos hc
    refine ⟨l ++ [(m, -(c : ℚ))], ?_, List.forall_mem_append.mpr ⟨hterms, List.forall_mem_singleton.mpr ⟨hneg.ne, hm, hunknowns⟩⟩⟩
    rw [Polynomial.layout_concat hne, if_pos hneg, neg_neg, hbinary]

end Tree

end AlgebraTutor
