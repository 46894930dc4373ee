import AlgebraTutor.Proofs.Tree.Built

/-!
# The integers of a tree

An integer of more digits than the limit can be neither written nor read. A built tree whose integers are within the
limit is composed, so it is written and read back.
-/

namespace AlgebraTutor.Tree

/-- The integer has no more digits than can be written. -/
def IsShort (n : Int) : Prop :=
  (Nat.toDigits 10 n.natAbs).length ≤ digitLimit

theorem isShort_neg {n : Int} : IsShort (-n) ↔ IsShort n := by
  rw [IsShort, Int.natAbs_neg, IsShort]

theorem isShort_one : IsShort 1 :=
  (by decide : (Nat.toDigits 10 1).length ≤ digitLimit)

theorem isShort_of_natAbs_lt {n : Int} (hn : n.natAbs < 10 ^ digitLimit) : IsShort n :=
  (Nat.length_toDigits_le_iff (by decide) (by decide)).mpr hn

theorem isShort_of_lt {k : Nat} (hk : k < 10 ^ digitLimit) : IsShort k :=
  isShort_of_natAbs_lt hk

/-- Every integer of the tree can be written. -/
def HasShortIntegers (t : Tree) : Prop :=
  ∀ n : Int, .const n ∈ t.nodes → IsShort n

variable {t u : Tree}

theorem hasShortIntegers_const {n : Int} : (const n).HasShortIntegers ↔ IsShort n := by
  constructor
  · exact fun h => h n (by simp [nodes])
  · intro h m hm
    obtain rfl : m = n := by simpa [nodes] using hm
    exact h

theorem hasShortIntegers_natCast {n : Nat} : (const n).HasShortIntegers ↔ IsShort n := by
  rw [← hasShortIntegers_const, Int.cast_natCast]

@[simp]
theorem hasShortIntegers_symbol (name : String) : (symbol name).HasShortIntegers := by
  simp [HasShortIntegers, nodes]

theorem hasShortIntegers_paren : (paren t).HasShortIntegers ↔ t.HasShortIntegers := by
  simp [HasShortIntegers, nodes]

theorem hasShortIntegers_stripParens : t.stripParens.HasShortIntegers ↔ t.HasShortIntegers := by
  induction t using stripParens.induct with
  | case1 content ih => rw [stripParens, ih, hasShortIntegers_paren]
  | case2 t h => rw [stripParens]; simpa using h

theorem hasShortIntegers_parenIf {needed : Bool} : (parenIf needed t).HasShortIntegers ↔ t.HasShortIntegers := by
  cases needed
  · rfl
  · exact hasShortIntegers_paren

theorem hasShortIntegers_apply {op : Op} {args : List Tree} :
    (apply op args).HasShortIntegers ↔ ∀ a ∈ args, a.HasShortIntegers := by
  simp only [HasShortIntegers, nodes, List.mem_cons, reduceCtorEq, false_or, mem_nodesAll]
  constructor
  · intro h a ha n hn
    exact h n ⟨a, ha, hn⟩
  · rintro h n ⟨a, ha, hn⟩
    exact h a ha n hn

theorem hasShortIntegers_binary {op : Op} :
    (binary op t u).HasShortIntegers ↔ t.HasShortIntegers ∧ u.HasShortIntegers := by
  simp [binary, hasShortIntegers_apply, hasShortIntegers_parenIf, hasShortIntegers_stripParens]

theorem hasShortIntegers_const_neg {value : Rat} :
    (const (-value)).HasShortIntegers ↔ (const value).HasShortIntegers := by
  have hneg {value : Rat} (h : (const value).HasShortIntegers) : (const (-value)).HasShortIntegers := by
    intro n hn
    have hn : (n : Rat) = -value := by simpa [nodes] using hn
    exact isShort_neg.mp (h (-n) (by simp [nodes, hn]))
  exact ⟨fun h => by simpa using hneg h, hneg⟩

theorem hasShortIntegers_negate : t.negate.HasShortIntegers ↔ t.HasShortIntegers := by
  rcases negate_cases t with ⟨value, hvalue, hnegate⟩ | hnegate
  · rw [hnegate, hasShortIntegers_const_neg, ← hvalue, hasShortIntegers_stripParens]
  · simp [hnegate, hasShortIntegers_apply, hasShortIntegers_parenIf, hasShortIntegers_stripParens]

theorem hasShortIntegers_build {op : Op} {args : List Tree} (hbuild : build op args = .ok t) :
    t.HasShortIntegers ↔ ∀ a ∈ args, a.HasShortIntegers := by
  rcases build_eq_ok hbuild with ⟨f, -, rfl⟩ | ⟨u, -, rfl, rfl⟩ | ⟨l, r, -, rfl, rfl⟩
  · simp [call, hasShortIntegers_apply, hasShortIntegers_stripParens]
  · simp [hasShortIntegers_negate]
  · simp [hasShortIntegers_binary]

theorem Composed.hasShortIntegers (h : t.Composed) : t.HasShortIntegers := by
  induction h with
  | integer n hn => exact hasShortIntegers_const.mpr hn
  | letter | pi => exact hasShortIntegers_symbol _
  | build _ _ hbuild ih => exact (hasShortIntegers_build hbuild).mpr ih

/-- A built tree whose integers can be written is composed. -/
theorem Built.composed_of_hasShortIntegers (h : t.Built) (hshort : t.HasShortIntegers) : t.Composed := by
  induction h with
  | integer n => exact .integer n (hasShortIntegers_const.mp hshort)
  | letter c hc => exact .letter c hc
  | pi => exact .pi
  | build hop _ hbuild ih => exact .build hop (fun a ha => ih a ha ((hasShortIntegers_build hbuild).mp hshort a ha)) hbuild

end AlgebraTutor.Tree
