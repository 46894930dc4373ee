import AlgebraTutor.Polynomial.Layout
import AlgebraTutor.Proofs.Tree.WellFormed

/-!
# Trees assembled of integers and symbols

The trees that `Tree.build` makes of integers, symbols and calls whose names have a given property: what a polynomial or a
value is laid out as. They are well-formed; where the names are those that a reader knows, they are built.
-/

namespace AlgebraTutor

namespace Tree

/-- The tree is built of integers and of symbols with the property `S`, by operators and calls of functions with the
property `F`. -/
inductive Assembled (S F : String → Prop) : Tree → Prop
  | integer (n : Int) : Assembled S F (.const n)
  | symbol {name : String} (h : S name) : Assembled S F (.symbol name)
  | build {op : Op} {args : List Tree} {t : Tree}
    (hop : op.isArithmetic = true ∨ (∃ f, F f ∧ op = .call f) ∧ args ≠ [])
    (hargs : ∀ a ∈ args, Assembled S F a) (ht : build op args = .ok t) : Assembled S F t

namespace Assembled

variable {S F : String → Prop} {t u : Tree}

theorem negate (h : t.Assembled S F) : t.negate.Assembled S F :=
  @build S F .sub [t] _ (.inl rfl) (by simpa using h) rfl

theorem binary {op : Op} (hop : op.isArithmetic = true) (h : t.Assembled S F) (h' : u.Assembled S F) :
    (Tree.binary op t u).Assembled S F :=
  @build S F op [t, u] _ (.inl hop) (by simp [h, h']) (build_binary hop t u)

theorem call {f : String} (hf : F f) (h : t.Assembled S F) : (Tree.call f [t]).Assembled S F :=
  @build S F (.call f) [t] _ (.inr ⟨⟨f, hf, rfl⟩, by simp⟩) (by simpa using h) rfl

theorem ofRat (c : Rat) : (Tree.ofRat c).Assembled S F := by
  unfold Tree.ofRat
  split
  · exact .integer c.num
  · exact .binary rfl (.integer c.num) (.integer c.den)

theorem productOf {ts : List Tree} (h : ∀ t ∈ ts, t.Assembled S F) : (Tree.productOf ts).Assembled S F := by
  cases ts with
  | nil => exact .integer 1
  | cons t ts =>
    rw [Tree.productOf]
    induction ts generalizing t with
    | nil => exact h t (by simp)
    | cons u ts ih =>
      refine ih (Tree.binary .mul t u) (List.forall_mem_cons.mpr ⟨.binary rfl (h t (by simp)) (h u (by simp)), ?_⟩)
      exact fun w hw => h w (by simp [hw])

theorem negateFirst {ts : List Tree} (h : ∀ t ∈ ts, t.Assembled S F) : ∀ t ∈ Tree.negateFirst ts, t.Assembled S F := by
  cases ts with
  | nil => exact List.forall_mem_singleton.mpr (.integer (-1))
  | cons t ts =>
    obtain ⟨ht, hts⟩ := List.forall_mem_cons.mp h
    exact List.forall_mem_cons.mpr ⟨ht.negate, hts⟩

theorem integerMultiple (n : Int) {ts : List Tree} (h : ∀ t ∈ ts, t.Assembled S F) :
    (Tree.integerMultiple n ts).Assembled S F := by
  unfold Tree.integerMultiple
  split_ifs
  · exact .productOf h
  · exact .productOf (.negateFirst h)
  · exact .productOf (List.forall_mem_cons.mpr ⟨.integer n, h⟩)

/-- What is assembled is well-formed. -/
theorem wellFormed (h : t.Assembled S F) : t.WellFormed := by
  induction h with
  | integer n => exact .const n
  | symbol => exact .symbol _
  | build _ _ ht ih => exact .build ih ht

end Assembled

end Tree

end AlgebraTutor
