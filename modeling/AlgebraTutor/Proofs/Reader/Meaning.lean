import AlgebraTutor.Proofs.Answer
import AlgebraTutor.Proofs.Reader.Derivation
import AlgebraTutor.Proofs.Tree.Functions
import AlgebraTutor.Reader.Expression

/-!
# The tree that a phrase stands for

What it takes for a phrase to stand for a tree, constructor by constructor. So a property of the leaves of such trees that
signs, operators and calls of known functions keep is one of the trees. The phrase is proper, so the grammar derives it; and
if the tree holds no call of a function, no name of a function was among the tokens of the phrase.
-/

namespace AlgebraTutor.Reader

open Phrase (isProper areProper leaves leavesAll)

section Constructors

variable {text : String} {vars : List Char} {t : Tree}

theorem treeOf_name_eq_ok_iff {n : String} :
    treeOf text vars (.name n) = .ok t ↔ t = .symbol n ∧ ((∃ c ∈ vars, n = c.toString) ∨ Tree.isNamedConstant n = true) := by
  have hvars : (vars.any (fun c => n == c.toString) || Tree.isNamedConstant n) = true ↔
      (∃ c ∈ vars, n = c.toString) ∨ Tree.isNamedConstant n = true := by
    rw [Bool.or_eq_true, List.any_eq_true]
    simp only [beq_iff_eq]
  change (if _ then _ else _ : Answer Tree) = _ ↔ _
  split
  · rename_i hname
    rw [hvars] at hname
    exact ⟨fun h => ⟨(Except.ok.inj h).symm, hname⟩, fun h => by rw [h.1]⟩
  · rename_i hname
    exact ⟨nofun, fun h => absurd (hvars.mpr h.2) hname⟩

theorem treesOf_cons_eq_ok_iff {p : Phrase} {ps : List Phrase} {ts : List Tree} :
    treesOf text vars (p :: ps) = .ok ts ↔ ∃ t, treeOf text vars p = .ok t ∧ ∃ us, treesOf text vars ps = .ok us ∧ t :: us = ts := by
  refine Answer.bind_eq_ok_iff.trans ?_
  simp only [Answer.bind_eq_ok_iff, Answer.pure_eq_ok_iff]

theorem treesOf_eq_ok_iff {ps : List Phrase} {ts : List Tree} :
    treesOf text vars ps = .ok ts ↔ List.Forall₂ (fun p t => treeOf text vars p = .ok t) ps ts := by
  induction ps generalizing ts with
  | nil =>
    rw [List.forall₂_nil_left_iff]
    exact ⟨fun h => (Except.ok.inj h).symm, fun h => congrArg _ h.symm⟩
  | cons p ps ih =>
    simp only [treesOf_cons_eq_ok_iff, ih, List.forall₂_cons_left_iff]
    constructor
    · rintro ⟨t, ht, ts, hts, h⟩
      exact ⟨t, ts, ht, hts, h.symm⟩
    · rintro ⟨t, ts, ht, hts, h⟩
      exact ⟨t, ht, ts, hts, h.symm⟩

/-- The names of functions are not those of the calls that numbers and letters are. -/
theorem operandTree?_of_function {f : String} (hf : f ∈ Text.functionNames) (text : String) (args : List Phrase) :
    operandTree? text f args = none := by
  have hnames : ∀ f ∈ Text.functionNames, ¬(f = "integer" ∨ f = "decimal") ∧ f ≠ "letter" := by decide
  simp [operandTree?, (hnames f hf).1, (hnames f hf).2]

theorem operandTree?_eq_ok_iff {f : String} {args : List Phrase} :
    operandTree? text f args = some (.ok t) ↔
      ((f = "integer" ∨ f = "decimal") ∧ ∃ l value, args = [.literal l] ∧ l.value? = some value ∧ t = .const value) ∨
        f = "letter" ∧ ∃ s, args = [.quoted s] ∧ t = .symbol s := by
  constructor
  · intro hread
    unfold operandTree? at hread
    split_ifs at hread with hnumber hname
    · split at hread
      · rename_i l
        split at hread
        · rename_i value hvalue
          exact .inl ⟨hnumber, l, value, rfl, hvalue, (Except.ok.inj (Option.some.inj hread)).symm⟩
        · simp at hread
      · simp at hread
    · split at hread
      · rename_i s
        exact .inr ⟨hname, s, rfl, (Except.ok.inj (Option.some.inj hread)).symm⟩
      · simp at hread
  · rintro (⟨hnumber, l, value, rfl, hvalue, rfl⟩ | ⟨rfl, s, rfl, rfl⟩)
    · simp [operandTree?, hnumber, hvalue]
    · simp [operandTree?]

theorem treeOf_call_eq_ok_iff {f : String} {args : List Phrase} :
    treeOf text vars (.call f args) = .ok t ↔
      operandTree? text f args = some (.ok t) ∨
        f ∈ Text.functionNames ∧ args ≠ [] ∧ ∃ ts, treesOf text vars args = .ok ts ∧ Tree.call f ts = t := by
  by_cases hf : f ∈ Text.functionNames
  · cases args with
    | nil => simp [treeOf, operandTree?_of_function hf, hf]
    | cons p ps => simp [treeOf, operandTree?_of_function hf, hf]
  · cases hoperand : operandTree? text f args with
    | none => simp [treeOf, hoperand, hf]
    | some answer => simp [treeOf, hoperand, hf]

theorem treeOf_negative_eq_ok_iff {p : Phrase} :
    treeOf text vars (.negative p) = .ok t ↔ ∃ u, treeOf text vars p = .ok u ∧ u.negate = t := by
  refine Answer.bind_eq_ok_iff.trans ?_
  simp only [Answer.pure_eq_ok_iff]

theorem treeOf_positive (p : Phrase) : treeOf text vars (.positive p) = treeOf text vars p := rfl

theorem treeOf_binary_eq_ok_iff {op : Operation} {p q : Phrase} :
    treeOf text vars (.binary op p q) = .ok t ↔
      ∃ o, op.op? = some o ∧ ∃ u, treeOf text vars p = .ok u ∧ ∃ v, treeOf text vars q = .ok v ∧ Tree.binary o u v = t := by
  cases hop : op.op? with
  | none => simp [treeOf, hop]
  | some o => simp [treeOf, hop, Answer.bind_eq_ok_iff]

theorem isArithmetic_of_op? {op : Operation} {o : Op} (h : op.op? = some o) : o.isArithmetic = true := by
  cases op <;> simp only [Operation.op?, Option.some.injEq, reduceCtorEq] at h <;> subst h <;> rfl

end Constructors

/-! ### Induction along the reading of a tree -/

section Induction

variable {text : String} {vars : List Char}

mutual

/-- What holds of each operand and its tree, and of each sign, operator and call over phrases of which it holds, holds of every
phrase and the tree that it stands for. -/
theorem reading_induction {P : Phrase → Tree → Prop}
    (name : ∀ n, (∃ c ∈ vars, n = c.toString) ∨ Tree.isNamedConstant n = true → P (.name n) (.symbol n))
    (number : ∀ f l value, f = "integer" ∨ f = "decimal" → l.value? = some value → P (.call f [.literal l]) (.const value))
    (letter : ∀ s, P (.call "letter" [.quoted s]) (.symbol s))
    (call : ∀ f ps ts, f ∈ Text.functionNames → ps ≠ [] → List.Forall₂ P ps ts → P (.call f ps) (Tree.call f ts))
    (negative : ∀ p t, P p t → P (.negative p) t.negate) (positive : ∀ p t, P p t → P (.positive p) t)
    (binary : ∀ op o p q t u, op.op? = some o → P p t → P q u → P (.binary op p q) (.binary o t u)) {p : Phrase} {t : Tree}
    (hread : treeOf text vars p = .ok t) : P p t := by
  match p with
  | .name n =>
    obtain ⟨rfl, hn⟩ := treeOf_name_eq_ok_iff.mp hread
    exact name n hn
  | .literal _ | .quoted _ | .other => cases hread
  | .call f args =>
    rcases treeOf_call_eq_ok_iff.mp hread with hoperand | ⟨hf, hargs, ts, hts, rfl⟩
    · rcases operandTree?_eq_ok_iff.mp hoperand with ⟨hnumber, l, value, rfl, hvalue, rfl⟩ | ⟨rfl, s, rfl, rfl⟩
      · exact number f l value hnumber hvalue
      · exact letter s
    · exact call f args ts hf hargs (forall₂_of_reading name number letter call negative positive binary (treesOf_eq_ok_iff.mp hts))
  | .negative p =>
    obtain ⟨u, hu, rfl⟩ := treeOf_negative_eq_ok_iff.mp hread
    exact negative p u (reading_induction name number letter call negative positive binary hu)
  | .positive p => exact positive p t (reading_induction name number letter call negative positive binary (p := p) hread)
  | .binary op p q =>
    obtain ⟨o, ho, u, hu, v, hv, rfl⟩ := treeOf_binary_eq_ok_iff.mp hread
    exact binary op o p q u v ho (reading_induction name number letter call negative positive binary hu)
      (reading_induction name number letter call negative positive binary hv)

theorem forall₂_of_reading {P : Phrase → Tree → Prop}
    (name : ∀ n, (∃ c ∈ vars, n = c.toString) ∨ Tree.isNamedConstant n = true → P (.name n) (.symbol n))
    (number : ∀ f l value, f = "integer" ∨ f = "decimal" → l.value? = some value → P (.call f [.literal l]) (.const value))
    (letter : ∀ s, P (.call "letter" [.quoted s]) (.symbol s))
    (call : ∀ f ps ts, f ∈ Text.functionNames → ps ≠ [] → List.Forall₂ P ps ts → P (.call f ps) (Tree.call f ts))
    (negative : ∀ p t, P p t → P (.negative p) t.negate) (positive : ∀ p t, P p t → P (.positive p) t)
    (binary : ∀ op o p q t u, op.op? = some o → P p t → P q u → P (.binary op p q) (.binary o t u)) {ps : List Phrase}
    {ts : List Tree} (hread : List.Forall₂ (fun p t => treeOf text vars p = .ok t) ps ts) : List.Forall₂ P ps ts := by
  match ps, ts, hread with
  | [], [], .nil => exact .nil
  | p :: ps, t :: ts, .cons ht hts =>
    exact .cons (reading_induction name number letter call negative positive binary ht)
      (forall₂_of_reading name number letter call negative positive binary hts)

end

/-- A property of names, numbers and letters that signs, operators and calls of functions keep is one of every tree that
is read. -/
theorem treeOf_induction {P : Tree → Prop}
    (name : ∀ n, (∃ c ∈ vars, n = c.toString) ∨ Tree.isNamedConstant n = true → P (.symbol n))
    (negate : ∀ t, P t → P t.negate)
    (binary : ∀ op t u, op.isArithmetic = true → P t → P u → P (.binary op t u))
    (call : ∀ f ts, f ∈ Text.functionNames → ts ≠ [] → (∀ t ∈ ts, P t) → P (.call f ts)) {p : Phrase} {t : Tree}
    (number : ∀ l value, .literal l ∈ p.leaves → l.value? = some value → P (.const value))
    (letter : ∀ s, .quoted s ∈ p.leaves → P (.symbol s)) (hread : treeOf text vars p = .ok t) : P t := by
  refine reading_induction
    (P := fun p t => (∀ l value, .literal l ∈ p.leaves → l.value? = some value → P (.const value)) →
      (∀ s, .quoted s ∈ p.leaves → P (.symbol s)) → P t)
    (fun n hn _ _ => name n hn) (fun f l value _ hvalue number _ => number l value (by simp [leaves, leavesAll]) hvalue)
    (fun s _ letter => letter s (by simp [leaves, leavesAll])) ?_ (fun p t ih number letter => negate t (ih number letter))
    (fun p t ih => ih) ?_ hread number letter
  · intro f ps ts hf hps hts number letter
    have hne : ts ≠ [] := by
      rintro rfl
      exact hps (List.forall₂_nil_right_iff.mp hts)
    refine call f ts hf hne fun t ht => ?_
    obtain ⟨p, hp, ih⟩ := exists_of_forall₂ hts.flip ht
    have hleaves {x : Token} (hx : x ∈ p.leaves) : x ∈ (Phrase.call f ps).leaves :=
      List.mem_cons_of_mem _ (Phrase.mem_leavesAll.mpr ⟨p, hp, hx⟩)
    exact ih (fun l value hl => number l value (hleaves hl)) (fun s hs => letter s (hleaves hs))
  · intro op o p q t u ho ihp ihq number letter
    exact binary o t u (isArithmetic_of_op? ho)
      (ihp (fun l value hl => number l value (List.mem_append_left _ hl)) (fun s hs => letter s (List.mem_append_left _ hs)))
      (ihq (fun l value hl => number l value (List.mem_append_right _ hl)) (fun s hs => letter s (List.mem_append_right _ hs)))

theorem isProper_of_treeOf {p : Phrase} {t : Tree} (hread : treeOf text vars p = .ok t) : p.isProper = true := by
  refine reading_induction (P := fun p _ => p.isProper = true) (fun _ _ => rfl) (fun _ _ _ _ _ => rfl) (fun _ => rfl) ?_
    (fun _ _ ih => ih) (fun _ _ ih => ih) (fun _ _ _ _ _ _ _ ihp ihq => by simp [isProper, ihp, ihq]) hread
  intro f ps ts _ hps hts
  have hproper : areProper ps = true := Phrase.areProper_iff.mpr fun p hp => (exists_of_forall₂ hts hp).elim fun _ h => h.2
  simp [isProper, hps, hproper]

/-- The whole text is only quoted in reports of failures. -/
theorem treeOf_of_text {text' : String} {p : Phrase} {t : Tree} (hread : treeOf text vars p = .ok t) :
    treeOf text' vars p = .ok t := by
  refine reading_induction (P := fun p t => treeOf text' vars p = .ok t) (fun n hn => treeOf_name_eq_ok_iff.mpr ⟨rfl, hn⟩) ?_ ?_ ?_
    (fun p t ih => treeOf_negative_eq_ok_iff.mpr ⟨t, ih, rfl⟩) (fun p t ih => ih)
    (fun op o p q t u ho ihp ihq => treeOf_binary_eq_ok_iff.mpr ⟨o, ho, t, ihp, u, ihq, rfl⟩) hread
  · exact fun f l value hf hvalue =>
      treeOf_call_eq_ok_iff.mpr (.inl (operandTree?_eq_ok_iff.mpr (.inl ⟨hf, l, value, rfl, hvalue, rfl⟩)))
  · exact fun s => treeOf_call_eq_ok_iff.mpr (.inl (operandTree?_eq_ok_iff.mpr (.inr ⟨rfl, s, rfl, rfl⟩)))
  · exact fun f ps ts hf hps hts => treeOf_call_eq_ok_iff.mpr (.inr ⟨hf, hps, ts, treesOf_eq_ok_iff.mpr hts, rfl⟩)

end Induction

end AlgebraTutor.Reader

namespace AlgebraTutor

/-! ### Trees without calls -/

namespace Tree

/-- The tree calls no function. -/
def CallFree (t : Tree) : Prop :=
  ∀ name args, .apply (.call name) args ∉ t.nodes

variable {t u : Tree}

theorem callFree_paren : (Tree.paren t).CallFree ↔ t.CallFree :=
  callsOnly_paren

theorem callFree_apply {op : Op} {args : List Tree} (hop : op.isArithmetic = true) (hargs : ∀ t ∈ args, t.CallFree) :
    (Tree.apply op args).CallFree :=
  (callsOnly_arithmetic hop).mpr hargs

theorem CallFree.of_negate (h : t.negate.CallFree) : t.CallFree :=
  callsOnly_negate.mp h

theorem CallFree.of_binary {op : Op} (hop : op.isArithmetic = true) (h : (binary op t u).CallFree) :
    t.CallFree ∧ u.CallFree :=
  (callsOnly_binary hop).mp h

end Tree

namespace Reader

open Phrase (leaves leavesAll)

theorem letter_not_function (c : Char) : c.toString ∉ Text.functionNames := by
  have hlength : ∀ name ∈ Text.functionNames, name.toList.length ≠ 1 := by decide
  exact fun h => hlength _ h (by simp)

/-- A phrase that stands for a tree without calls names no function. -/
theorem function_not_mem_leaves {text : String} {vars : List Char} {p : Phrase} {t : Tree}
    (hread : treeOf text vars p = .ok t) (hfree : t.CallFree) {f : String} (hf : f ∈ Text.functionNames) :
    .word f ∉ p.leaves := by
  have hnames : ∀ f ∈ Text.functionNames, f ≠ "integer" ∧ f ≠ "decimal" ∧ f ≠ "letter" ∧ Tree.isNamedConstant f = false := by
    decide
  obtain ⟨hinteger, hdecimal, hletter, hconstant⟩ := hnames f hf
  refine reading_induction (P := fun p t => t.CallFree → .word f ∉ p.leaves) ?_ ?_ ?_ ?_ (fun p t ih hfree => ih hfree.of_negate)
    (fun p t ih => ih) ?_ hread hfree
  · intro n hn _ hmem
    obtain rfl : f = n := by simpa [leaves] using hmem
    rcases hn with ⟨c, -, rfl⟩ | hn
    · exact letter_not_function c hf
    · simp [hconstant] at hn
  · rintro g l value (rfl | rfl) - - <;> simp [leaves, leavesAll, hinteger, hdecimal]
  · intro s _
    simp [leaves, leavesAll, hletter]
  · intro g ps ts _ _ _ hfree
    exact absurd List.mem_cons_self (hfree g (ts.map Tree.stripParens))
  · intro op o p q t u ho ihp ihq hfree
    obtain ⟨hleft, hright⟩ := hfree.of_binary (isArithmetic_of_op? ho)
    simp [leaves, ihp hleft, ihq hright]

/-- The words of a phrase that stands for a tree are its variables, the named constants, and what can be applied. -/
theorem word_of_mem_leaves {text : String} {vars : List Char} {p : Phrase} {t : Tree}
    (hread : treeOf text vars p = .ok t) {w : String} (hw : .word w ∈ p.leaves) :
    (∃ c ∈ vars, w = c.toString) ∨ Tree.isNamedConstant w = true ∨ isCallable w = true := by
  refine reading_induction
    (P := fun p _ => .word w ∈ p.leaves → (∃ c ∈ vars, w = c.toString) ∨ Tree.isNamedConstant w = true ∨ isCallable w = true)
    ?_ ?_ ?_ ?_ (fun p t ih => ih) (fun p t ih => ih) (fun op o p q t u _ ihp ihq hw => (List.mem_append.mp hw).elim ihp ihq) hread hw
  · intro n hn hw
    obtain rfl : w = n := by simpa [leaves] using hw
    exact hn.imp_right .inl
  · intro g l value hg _ hw
    obtain rfl : w = g := by simpa [leaves, leavesAll] using hw
    rcases hg with rfl | rfl <;> exact .inr (.inr rfl)
  · intro s hw
    obtain rfl : w = "letter" := by simpa [leaves, leavesAll] using hw
    exact .inr (.inr rfl)
  · intro g ps ts hg _ hts hw
    rcases List.mem_cons.mp hw with heq | hw
    · obtain rfl := Token.word.inj heq
      exact .inr (.inr (by simp [isCallable, hg]))
    · obtain ⟨p, hp, hw⟩ := Phrase.mem_leavesAll.mp hw
      obtain ⟨_, -, ih⟩ := exists_of_forall₂ hts hp
      exact ih hw

end Reader

end AlgebraTutor
