import Mathlib.Tactic.SplitIfs
import Mathlib.Tactic.Tauto
import AlgebraTutor.Expr.Engine

/-!
# The unknowns of a value

A value is within a set of names if all its unknowns are among them. Taking values apart and putting them together by the
constructors keeps them within the set; that the operations on values do so too is proved operation by operation.
-/

namespace AlgebraTutor

namespace Expr

/-- All unknowns of the value have the property `S`. -/
inductive Within (S : String → Prop) : Expr → Prop
  | num (value : Rat) : Within S (num value)
  | infinite : Within S infinite
  | indeterminate : Within S indeterminate
  | named (constant : NamedConstant) : Within S (named constant)
  | symbol {name : String} (h : S name) : Within S (symbol name)
  | add {terms : List Expr} (h : ∀ t ∈ terms, Within S t) : Within S (add terms)
  | mul {factors : List Expr} (h : ∀ f ∈ factors, Within S f) : Within S (mul factors)
  | pow {base exponent : Expr} (hb : Within S base) (hx : Within S exponent) : Within S (pow base exponent)
  | fn {function : Func} {argument : Expr} (h : Within S argument) : Within S (fn function argument)

attribute [simp, grind ←] Within.num Within.infinite Within.indeterminate Within.named

variable {S : String → Prop} {e x b : Expr} {es : List Expr}

@[simp, grind =]
theorem within_symbol {name : String} : (Expr.symbol name).Within S ↔ S name :=
  ⟨fun h => by cases h; assumption, .symbol⟩

@[simp, grind =]
theorem within_add : (Expr.add es).Within S ↔ ∀ t ∈ es, t.Within S :=
  ⟨fun h => by cases h; assumption, .add⟩

@[simp, grind =]
theorem within_mul : (Expr.mul es).Within S ↔ ∀ f ∈ es, f.Within S :=
  ⟨fun h => by cases h; assumption, .mul⟩

@[simp, grind =]
theorem within_pow : (Expr.pow b x).Within S ↔ b.Within S ∧ x.Within S :=
  ⟨fun h => by cases h; exact ⟨‹_›, ‹_›⟩, fun h => .pow h.1 h.2⟩

@[simp, grind =]
theorem within_fn {f : Func} : (Expr.fn f x).Within S ↔ x.Within S :=
  ⟨fun h => by cases h; assumption, .fn⟩

@[simp, grind ←] theorem within_zero : zero.Within S := .num 0
@[simp, grind ←] theorem within_one : one.Within S := .num 1
@[simp, grind ←] theorem within_minusOne : minusOne.Within S := .num (-1)
@[simp, grind ←] theorem within_half : half.Within S := .num (1 / 2)
@[simp, grind ←] theorem within_pi : pi.Within S := .named .pi
@[simp, grind ←] theorem within_e : Expr.e.Within S := .named .e
@[simp, grind ←] theorem within_i : i.Within S := .named .i

/-! ### Taking apart and putting together -/

theorem within_terms (h : e.Within S) : ∀ t ∈ e.terms, t.Within S := by
  cases h <;> simp_all [terms]

grind_pattern within_terms => t ∈ e.terms, t.Within S

theorem within_factors (h : e.Within S) : ∀ f ∈ e.factors, f.Within S := by
  cases h <;> simp_all [factors]

grind_pattern within_factors => f ∈ e.factors, f.Within S

@[grind ←]
theorem within_rawMul (h : ∀ f ∈ es, f.Within S) : (rawMul es).Within S := by
  unfold rawMul
  split <;> simp_all

@[grind ←]
theorem within_rawAdd (h : ∀ t ∈ es, t.Within S) : (rawAdd es).Within S := by
  unfold rawAdd
  split <;> simp_all

@[simp, grind =]
theorem mem_sort : e ∈ sort es ↔ e ∈ es :=
  List.mem_mergeSort

@[grind ←]
theorem within_coefficient (h : e.Within S) : e.coefficient.2.Within S := by
  unfold coefficient
  split
  · exact within_one
  · exact within_rawMul fun f hf => within_factors h f (List.mem_cons_of_mem _ hf)
  · exact h

@[grind ←]
theorem within_negTerm (h : e.Within S) : e.negTerm.Within S := by
  unfold negTerm
  split
  case h_5 =>
    split
    · exact within_rawMul (by simp_all)
    · simp_all
  all_goals simp_all

@[grind ←]
theorem within_neg (h : e.Within S) : e.neg.Within S := by
  unfold neg
  split
  · simp only [within_add, mem_sort, List.forall_mem_map] at h ⊢
    exact fun t ht => within_negTerm (h t ht)
  · exact within_negTerm h

theorem within_basePower (h : e.Within S) : e.basePower.1.Within S ∧ e.basePower.2.Within S := by
  unfold basePower
  split
  · split
    · exact ⟨.num _, within_neg (within_pow.mp h).2⟩
    · exact within_pow.mp h
  all_goals simp_all

/-! ### The order in which a value is written -/

theorem within_decomposePower (h : e.Within S) : e.decomposePower.1.Within S := by
  have hbase := within_basePower h
  unfold decomposePower
  grind

theorem term_orderedTerm (t : Expr) : (orderedTerm t).term = t := by
  unfold orderedTerm
  dsimp only
  split
  · rfl
  · refine List.foldlRecOn (motive := fun (row : OrderedTerm) => row.term = t) _ _ rfl fun row hrow f _ => ?_
    split <;> exact hrow

theorem mem_of_positiveFirst? {ordered : List Expr} (h : positiveFirst? es = some ordered) : ∀ t ∈ ordered, t ∈ es := by
  unfold positiveFirst? at h
  split at h
  · rename_i hsplit
    split_ifs at h
    obtain rfl := Option.some.inj h
    intro t ht
    rw [← hsplit] at ht
    simp at ht
    tauto
  · simp at h

/-- Writing the terms of a sum in order invents no term. -/
theorem mem_of_mem_orderTermsWithin {fuel : Nat} (h : e ∈ orderTermsWithin fuel es) : e ∈ es := by
  cases fuel with
  | zero => exact h
  | succ fuel =>
    rw [orderTermsWithin] at h
    split at h
    · rename_i hordered
      exact mem_of_positiveFirst? hordered e h
    · simp only [List.mem_map, List.mem_mergeSort] at h
      obtain ⟨_, ⟨row, ⟨t, ht, rfl⟩, rfl⟩, rfl⟩ := h
      rwa [term_orderedTerm]

@[grind →]
theorem mem_of_mem_orderedTerms {t : Expr} (h : t ∈ e.orderedTerms) : t ∈ e.terms := by
  unfold orderedTerms at h
  split at h
  · exact mem_of_mem_orderTermsWithin h
  · unfold terms
    grind

@[simp, grind =]
theorem mem_orderedFactors {f : Expr} : f ∈ e.orderedFactors ↔ f ∈ e.factors := by
  simp [orderedFactors]

@[grind →]
theorem mem_of_mem_dedup (h : e ∈ dedup es) : e ∈ es := by
  induction es using dedup.induct with
  | case1 => exact h
  | case2 => exact h
  | case3 a b rest heq ih =>
    rw [dedup, if_pos heq] at h
    exact List.mem_cons_of_mem a (ih h)
  | case4 a b rest hne ih =>
    rw [dedup, if_neg hne, List.mem_cons] at h
    exact List.mem_cons.mpr (h.imp_right ih)

end Expr

/-! ### Operations that keep within a set of names -/

/-- The operations answer values within a set of names from values within it. What they do to values apart from that is left
open, so one proof serves every level of operations that call one another. -/
structure Engine.Keeps (E : Engine) (S : String → Prop) : Prop where
  sum : ∀ {es : List Expr}, (∀ e ∈ es, e.Within S) → (E.sum es).Within S
  product : ∀ {es : List Expr}, (∀ e ∈ es, e.Within S) → (E.product es).Within S
  power : ∀ {b x : Expr}, b.Within S → x.Within S → (E.power b x).Within S
  apply : ∀ {f : Func} {x : Expr}, x.Within S → (E.apply f x).Within S
  expand : ∀ {e : Expr}, e.Within S → (E.expand e).Within S

attribute [grind ←] Engine.Keeps.sum Engine.Keeps.product Engine.Keeps.power Engine.Keeps.apply Engine.Keeps.expand

namespace Engine.Keeps

open AlgebraTutor.Expr

variable {E : Engine} {S : String → Prop} (hE : E.Keeps S) {a b e : Expr}

theorem inert : Engine.inert.Keeps S where
  sum := within_rawAdd
  product := within_rawMul
  power := .pow
  apply := .fn
  expand := id

include hE

@[grind ←]
theorem sum_pair (ha : a.Within S) (hb : b.Within S) : (E.sum [a, b]).Within S :=
  hE.sum (by simp [ha, hb])

@[grind ←]
theorem product_pair (ha : a.Within S) (hb : b.Within S) : (E.product [a, b]).Within S :=
  hE.product (by simp [ha, hb])

@[grind ←]
theorem quotient (ha : a.Within S) (hb : b.Within S) : (E.quotient a b).Within S :=
  hE.product_pair ha (hE.power hb within_minusOne)

@[grind ←]
theorem difference (ha : a.Within S) (hb : b.Within S) : (E.difference a b).Within S :=
  hE.sum_pair ha (within_neg hb)

@[grind ←]
theorem sqrt (ha : a.Within S) : (E.sqrt a).Within S :=
  hE.power ha within_half

@[grind ←]
theorem keepCoefficient (c : Rat) (he : e.Within S) : (E.keepCoefficient c e).Within S := by
  unfold Engine.keepCoefficient
  split
  · exact .num _
  · split_ifs
    · exact he
    · exact within_neg he
    · split
      · simpa using he
      · split_ifs
        · exact within_rawMul (by simp_all)
        · simp_all
      · simp_all
      · exact hE.product_pair (.num c) he

end Engine.Keeps

end AlgebraTutor
