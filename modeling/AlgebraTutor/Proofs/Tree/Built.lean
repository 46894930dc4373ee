import Mathlib.Data.List.Basic
import AlgebraTutor.Canonical.Coefficient
import AlgebraTutor.Proofs.Tree.Composed
import AlgebraTutor.Proofs.Tree.Printer
import AlgebraTutor.Proofs.Tree.Interpretation

/-!
# Built trees

The trees that `Tree.build` makes of integers of any size, letters and `pi`. Whatever of them can be written is composed, so
it is read back from its text. Their parts are built up to parentheses, and tidying their coefficients builds them again.
-/

namespace AlgebraTutor.Tree

/-- The tree is built of integers, single letters and `pi`, by operators and calls of functions. -/
inductive Built : Tree → Prop
  | integer (n : Int) : Built (.const n)
  | letter (c : Char) (hc : c.isAlpha = true) : Built (.symbol c.toString)
  | pi : Built (.symbol "pi")
  | build {op : Op} {args : List Tree} {t : Tree}
    (hop : op.isArithmetic = true ∨ (∃ f ∈ Text.functionNames, op = .call f) ∧ args ≠ [])
    (hargs : ∀ a ∈ args, Built a) (ht : build op args = .ok t) : Built t

theorem Composed.built {t : Tree} (h : t.Composed) : t.Built := by
  induction h with
  | integer n hn => exact .integer n
  | letter c hc => exact .letter c hc
  | pi => exact .pi
  | build hop _ ht ih => exact .build hop ih ht

variable {t u : Tree}

theorem Built.negate (h : t.Built) : t.negate.Built :=
  @build .sub [t] _ (.inl rfl) (by simpa using h) rfl

theorem Built.binary {op : Op} (hop : op.isArithmetic = true) (h : t.Built) (h' : u.Built) : (Tree.binary op t u).Built :=
  @build op [t, u] _ (.inl hop) (by simp [h, h']) (build_binary hop t u)

theorem Built.stripParens (h : t.Built) : t.stripParens = t := by
  cases h with
  | integer | letter | pi => rfl
  | build _ _ ht =>
    rcases build_eq_ok ht with ⟨f, -, rfl⟩ | ⟨u, -, -, rfl⟩ | ⟨l, r, -, -, rfl⟩
    · rfl
    · exact stripParens_negate u
    · rfl

theorem negate_cases (t : Tree) :
    (∃ value, t.stripParens = .const value ∧ t.negate = .const (-value)) ∨
      t.negate = .apply .sub [parenIf (t.stripParens.precedence ≤ signPrecedence) t.stripParens] := by
  unfold Tree.negate
  split
  · rename_i value hvalue
    exact .inl ⟨value, hvalue, rfl⟩
  · exact .inr rfl

theorem stripParens_stripParens (t : Tree) : t.stripParens.stripParens = t.stripParens := by
  induction t using Tree.stripParens.induct with
  | case1 content ih => rwa [Tree.stripParens]
  | case2 t h => simp [Tree.stripParens]

theorem stripParens_parenIf {needed : Bool} (hplain : t.stripParens = t) : (parenIf needed t).stripParens = t := by
  cases needed
  · exact hplain
  · rw [parenIf, if_pos rfl, Tree.stripParens, hplain]

/-- The operands of a built tree are built, within their parentheses. -/
theorem Built.args {op : Op} {args : List Tree} (h : (Tree.apply op args).Built) :
    (op.isArithmetic = true ∨ (∃ f ∈ Text.functionNames, op = .call f) ∧ args ≠ []) ∧ ∀ a ∈ args, a.stripParens.Built := by
  generalize hwhole : Tree.apply op args = whole at h
  cases h with
  | integer | letter | pi => simp at hwhole
  | @build op' args' _ hop hargs hbuild =>
    have hplain {a : Tree} (ha : a ∈ args') : a.stripParens = a := (hargs a ha).stripParens
    rcases build_eq_ok hbuild with ⟨f, rfl, rfl⟩ | ⟨u, rfl, rfl, rfl⟩ | ⟨l, r, harithmetic, rfl, rfl⟩
    · obtain ⟨rfl, rfl⟩ := Tree.apply.inj hwhole
      refine ⟨hop.imp_right fun h => ⟨h.1, by simpa using h.2⟩, fun a ha => ?_⟩
      obtain ⟨b, hb, rfl⟩ := List.mem_map.mp ha
      rw [stripParens_stripParens, hplain hb]
      exact hargs b hb
    · have hu := List.mem_singleton_self u
      rcases negate_cases u with ⟨value, -, hvalue⟩ | hsign
      · simp [hvalue] at hwhole
      · obtain ⟨rfl, rfl⟩ := Tree.apply.inj (hwhole.trans hsign)
        refine ⟨.inl rfl, fun a ha => ?_⟩
        obtain rfl := List.mem_singleton.mp ha
        rw [stripParens_parenIf (stripParens_stripParens u), hplain hu]
        exact hargs u hu
    · obtain ⟨rfl, rfl⟩ := Tree.apply.inj hwhole
      refine ⟨.inl harithmetic, fun a ha => ?_⟩
      rcases List.mem_pair.mp ha with rfl | rfl <;>
        rw [stripParens_parenIf (stripParens_stripParens _), hplain (by simp)] <;> exact hargs _ (by simp)

/-- A built number is an integer. -/
theorem Built.exists_integer (h : t.Built) {value : Rat} (ht : t = .const value) : ∃ n : Int, value = n := by
  induction h generalizing value with
  | integer n => exact ⟨n, (const.inj ht).symm⟩
  | letter | pi => simp at ht
  | @build op args t hop hargs hbuild ih =>
    rcases build_eq_ok hbuild with ⟨f, -, rfl⟩ | ⟨u, -, rfl, rfl⟩ | ⟨l, r, -, -, rfl⟩
    · simp [call] at ht
    · have hu := List.mem_singleton_self u
      rcases negate_cases u with ⟨v, hv, hvalue⟩ | hsign
      · obtain ⟨n, rfl⟩ := ih u hu ((hargs u hu).stripParens.symm.trans hv)
        exact ⟨-n, by simpa using (const.inj (hvalue.symm.trans ht)).symm⟩
      · simp [hsign] at ht
    · simp [Tree.binary] at ht

/-- The unknowns of a built tree are single letters. -/
theorem Built.isAlpha_of_mem_unknowns (h : t.Built) {v : String} (hv : v ∈ t.unknowns) :
    ∃ c : Char, c.isAlpha = true ∧ v = c.toString := by
  induction h with
  | integer n => simp [unknowns_const] at hv
  | letter c hc =>
    obtain rfl : v = c.toString := by simpa [mem_unknowns, nodes] using (mem_unknowns.mp hv).1
    exact ⟨c, hc, rfl⟩
  | pi =>
    obtain ⟨hmem, hname⟩ := mem_unknowns.mp hv
    obtain rfl : v = "pi" := by simpa [nodes] using hmem
    simp [isNamedConstant] at hname
  | build _ _ hbuild ih =>
    obtain ⟨a, ha, hv⟩ := mem_unknowns_of_build hbuild hv
    exact ih a ha hv

/-! ### Built trees that can be written -/

theorem chars_of_parenIf {needed : Bool} {cs : List Char} (h : (parenIf needed t).chars = .ok cs) :
    ∃ ds, t.chars = .ok ds := by
  cases needed with
  | false => exact ⟨cs, h⟩
  | true => exact (chars_paren_eq_ok_iff.mp h).imp fun _ hinner => hinner.1

theorem chars_of_binary {op : Op} (hop : op.isArithmetic = true) (hplain : t.stripParens = t) (hplain' : u.stripParens = u)
    {cs : List Char} (h : (Tree.binary op t u).chars = .ok cs) : (∃ ds, t.chars = .ok ds) ∧ ∃ ds, u.chars = .ok ds := by
  rw [Tree.binary, hplain, hplain', chars_operator_eq_ok_iff hop] at h
  obtain ⟨_, -, ds, hds, ds', hds', -⟩ := h
  exact ⟨chars_of_parenIf hds, chars_of_parenIf hds'⟩

theorem chars_of_charsAll {ts : List Tree} {css : List (List Char)} (h : charsAll ts = .ok css) :
    ∀ t ∈ ts, ∃ cs, t.chars = .ok cs := by
  induction ts generalizing css with
  | nil => simp
  | cons t ts ih =>
    obtain ⟨cs, hcs, h⟩ := Answer.bind_eq_ok_iff.mp h
    obtain ⟨css', hcss, -⟩ := Answer.bind_eq_ok_iff.mp h
    exact List.forall_mem_cons.mpr ⟨⟨cs, hcs⟩, ih hcss⟩

/-- A built tree that can be written is composed. -/
theorem Built.composed (h : t.Built) {cs : List Char} (hchars : t.chars = .ok cs) : t.Composed := by
  induction h generalizing cs with
  | integer n => exact .integer n (chars_integer_eq_ok_iff.mp hchars).1
  | letter c hc => exact .letter c hc
  | pi => exact .pi
  | @build op args t hop hargs hbuild ih =>
    have hplain {a : Tree} (ha : a ∈ args) : a.stripParens = a := (hargs a ha).stripParens
    have hcomposed (hwritten : ∀ a ∈ args, ∃ ds, a.chars = .ok ds) : t.Composed :=
      .build hop (fun a ha => ih a ha (hwritten a ha).choose_spec) hbuild
    rcases build_eq_ok hbuild with ⟨f, rfl, rfl⟩ | ⟨u, rfl, rfl, rfl⟩ | ⟨l, r, harithmetic, rfl, rfl⟩
    · obtain ⟨css, hcss, -⟩ := Answer.bind_eq_ok_iff.mp hchars
      refine hcomposed fun a ha => hplain ha ▸ chars_of_charsAll hcss _ (List.mem_map_of_mem ha)
    · rcases negate_cases u with ⟨value, -, hvalue⟩ | hsign
      · obtain ⟨n, hn⟩ := (Built.build hop hargs hbuild).exists_integer hvalue
        rw [hvalue, hn] at hchars ⊢
        exact .integer n (chars_integer_eq_ok_iff.mp hchars).1
      · rw [hsign, hplain (List.mem_singleton_self u)] at hchars
        obtain ⟨ds, hds, -⟩ := chars_sign_eq_ok_iff.mp hchars
        exact hcomposed (by simpa using chars_of_parenIf hds)
    · obtain ⟨hl, hr⟩ := chars_of_binary harithmetic (hplain (by simp)) (hplain (by simp)) hchars
      exact hcomposed (by simp [hl, hr])

/-! ### Rebuilding -/

/-- A tree that is built within its parentheses is built again from what its nodes become. -/
theorem Built.rebuild {node : Tree → Tree} (hnode : ∀ t, t.Built → (node t).Built) {t u : Tree} (h : t.stripParens.Built)
    (hbuilt : t.rebuild node = .ok u) : u.Built := by
  refine rebuild_induction (P := fun t u => t.stripParens.Built → u.Built) (fun value => hnode _) (fun name => hnode _)
    (fun t u ih => ih) ?_ hbuilt h
  intro op args us whole hrebuilt hwhole h
  obtain ⟨hop, hargs⟩ := h.args
  refine hnode _ (.build (hop.imp_right (And.imp_right fun hne => ?_)) (fun u hu => ?_) hwhole)
  · rwa [← List.length_pos_iff, ← hrebuilt.length_eq, List.length_pos_iff]
  · obtain ⟨a, ha, -, hbuilt⟩ := exists_of_forall₂ hrebuilt.flip hu
    exact hbuilt (hargs a ha)

theorem Built.coefficientNode (h : t.Built) : t.coefficientNode.Built := by
  have hproduct {c : ℚ} {other whole : Tree} (hother : other.Built) (hwhole : whole.Built) :
      (coefficientProduct c other whole).Built := by
    unfold coefficientProduct
    split_ifs
    · exact .integer 0
    · exact hother
    · exact hother.negate
    · exact hwhole
  unfold Tree.coefficientNode
  split
  · rename_i left right
    obtain ⟨-, hargs⟩ := h.args
    have hleft := hargs left (by simp)
    have hright := hargs right (by simp)
    split
    · exact hproduct hright h
    · rename_i c hc _
      exact hproduct hleft (.binary rfl (hc ▸ hright) hleft)
    · exact h
  · exact h

/-- Tidying the coefficients of a built tree builds one. -/
theorem Built.tidyCoefficients (h : t.Built) (hu : t.tidyCoefficients = .ok u) : u.Built :=
  Built.rebuild (fun _ => Built.coefficientNode) (by rwa [h.stripParens]) hu

end AlgebraTutor.Tree
