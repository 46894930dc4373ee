import AlgebraTutor.Text.Letters
import AlgebraTutor.Tree.Printer

/-!
# Composed trees

The trees that `Tree.build` makes of integers, letters and `pi`, from the leaves upwards. None of them has parentheses
around it, and each is a leaf, a sign, an operator between two composed trees, or a call with composed arguments.
-/

namespace AlgebraTutor.Tree

/-- The tree is built of integers within the digit limit, single letters and `pi`, by operators and calls of functions. -/
inductive Composed : Tree → Prop
  | integer (n : Int) (hn : (Nat.toDigits 10 n.natAbs).length ≤ digitLimit) : Composed (.const n)
  | letter (c : Char) (hc : c.isAlpha = true) : Composed (.symbol c.toString)
  | pi : Composed (.symbol "pi")
  | build {op : Op} {args : List Tree} {t : Tree}
    (hop : op.isArithmetic = true ∨ (∃ f ∈ Text.functionNames, op = .call f) ∧ args ≠ [])
    (hargs : ∀ a ∈ args, Composed a) (ht : build op args = .ok t) : Composed t

/-- The name is a single letter, or names a number. -/
def IsReadableName (v : String) : Prop :=
  (∃ c : Char, c.isAlpha = true ∧ v = c.toString) ∨ isNamedConstant v = true

theorem composed_symbol {v : String} (hv : IsReadableName v) : (symbol v).Composed := by
  rcases hv with ⟨c, hc, rfl⟩ | hconstant
  · exact .letter c hc
  · simp only [isNamedConstant, Bool.or_eq_true, beq_iff_eq] at hconstant
    rcases hconstant with rfl | rfl
    · exact .pi
    · exact .letter 'E' (by decide)

theorem stripParens_negate (t : Tree) : t.negate.stripParens = t.negate := by
  unfold negate
  split <;> rfl

theorem build_eq_ok {op : Op} {args : List Tree} {t : Tree} (ht : build op args = .ok t) :
    (∃ f, op = .call f ∧ t = call f args) ∨ (∃ u, op = .sub ∧ args = [u] ∧ t = u.negate) ∨
      ∃ l r, op.isArithmetic = true ∧ args = [l, r] ∧ t = binary op l r := by
  unfold build at ht
  split at ht
  · exact .inl ⟨_, rfl, (Except.ok.inj ht).symm⟩
  · exact .inr (.inl ⟨_, rfl, rfl, (Except.ok.inj ht).symm⟩)
  · rename_i l r hcall
    refine .inr (.inr ⟨l, r, ?_, rfl, (Except.ok.inj ht).symm⟩)
    cases op with
    | call f => exact absurd rfl (hcall f)
    | _ => rfl
  · simp at ht

theorem build_binary {op : Op} (hop : op.isArithmetic = true) (l r : Tree) : build op [l, r] = .ok (binary op l r) := by
  cases op with
  | call f => simp [Op.isArithmetic] at hop
  | _ => rfl

namespace Composed

variable {t u : Tree}

theorem negate (h : t.Composed) : t.negate.Composed :=
  @build .sub [t] _ (.inl rfl) (by simpa using h) rfl

theorem binary {op : Op} (hop : op.isArithmetic = true) (h : t.Composed) (h' : u.Composed) :
    (Tree.binary op t u).Composed :=
  @build op [t, u] _ (.inl hop) (by simp [h, h']) (build_binary hop t u)

theorem stripParens (h : t.Composed) : t.stripParens = t := by
  cases h with
  | integer | letter | pi => rfl
  | build _ _ ht =>
    rcases build_eq_ok ht with ⟨f, -, rfl⟩ | ⟨u, -, -, rfl⟩ | ⟨l, r, -, -, rfl⟩
    · rfl
    · exact stripParens_negate u
    · rfl

/-- A composed number is an integer within the digit limit. -/
theorem exists_integer (h : t.Composed) {value : Rat} (ht : t = .const value) :
    ∃ n : Int, value = n ∧ (Nat.toDigits 10 n.natAbs).length ≤ digitLimit := by
  induction h generalizing value with
  | integer n hn => exact ⟨n, (const.inj ht).symm, hn⟩
  | letter | pi => simp at ht
  | build hop hargs hbuild ih =>
    rcases build_eq_ok hbuild with ⟨f, -, rfl⟩ | ⟨u, -, rfl, rfl⟩ | ⟨l, r, -, -, rfl⟩
    · simp [call] at ht
    · have hplain := (hargs u (by simp)).stripParens
      unfold Tree.negate at ht
      split at ht
      · rename_i v hv
        obtain ⟨n, rfl, hn⟩ := ih u (by simp) (hplain.symm.trans hv)
        exact ⟨-n, by simpa using (const.inj ht).symm, by simpa using hn⟩
      · simp at ht
    · simp [Tree.binary] at ht

/-- Induction along the building of a composed tree, one case for each shape; the negative of a number is a number. -/
theorem shapes {motive : Tree → Prop} (h : t.Composed)
    (integer : ∀ n : Int, (Nat.toDigits 10 n.natAbs).length ≤ digitLimit → motive (.const n))
    (letter : ∀ c : Char, c.isAlpha = true → motive (.symbol c.toString)) (pi : motive (.symbol "pi"))
    (negate : ∀ t, t.Composed → (∀ value, t ≠ .const value) → motive t → motive t.negate)
    (binary : ∀ op l r, op.isArithmetic = true → l.Composed → r.Composed → motive l → motive r →
      motive (Tree.binary op l r))
    (call : ∀ f args, f ∈ Text.functionNames → args ≠ [] → (∀ a ∈ args, a.Composed ∧ motive a) →
      motive (Tree.call f args)) : motive t := by
  induction h with
  | integer n hn => exact integer n hn
  | letter c hc => exact letter c hc
  | pi => exact pi
  | @build op args t hop hargs ht ih =>
    have hcomposed : t.Composed := .build hop hargs ht
    rcases build_eq_ok ht with ⟨f, rfl, rfl⟩ | ⟨u, rfl, rfl, rfl⟩ | ⟨l, r, harithmetic, rfl, rfl⟩
    · rcases hop with harithmetic | ⟨⟨g, hg, heq⟩, hne⟩
      · simp [Op.isArithmetic] at harithmetic
      · exact call f args (Op.call.inj heq ▸ hg) hne fun a ha => ⟨hargs a ha, ih a ha⟩
    · have hu := List.mem_singleton_self u
      by_cases hconst : ∃ value, u = .const value
      · obtain ⟨value, rfl⟩ := hconst
        obtain ⟨n, heq, hn⟩ := hcomposed.exists_integer rfl
        change motive (.const (-value))
        rw [heq]
        exact integer n hn
      · exact negate u (hargs u hu) (not_exists.mp hconst) (ih u hu)
    · exact binary op l r harithmetic (hargs l (by simp)) (hargs r (by simp)) (ih l (by simp)) (ih r (by simp))

end Composed

end AlgebraTutor.Tree
