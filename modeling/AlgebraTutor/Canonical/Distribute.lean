import AlgebraTutor.Tree.Basic

/-!
# Distributing products over sums

A product with a sum as a factor becomes a sum of products, right factor first, until no product has a sum as
a factor any more.
-/

namespace AlgebraTutor.Tree

mutual

/-- The number of nodes of a tree. -/
def size : Tree → Nat
  | .const _ => 1
  | .symbol _ => 1
  | .apply _ args => 1 + totalSize args
  | .paren content => 1 + size content

/-- The number of nodes of several trees. -/
def totalSize : List Tree → Nat
  | [] => 0
  | t :: ts => size t + totalSize ts

end

theorem size_stripParens_le (t : Tree) : t.stripParens.size ≤ t.size := by
  induction t using stripParens.induct with
  | case1 content ih => simp only [stripParens, size]; omega
  | case2 t h => simp [stripParens]

/-- The operator and the operands of a sum or a difference, each within its parentheses. -/
def sumParts? : Tree → Option (Op × Tree × Tree)
  | .apply .add [left, right] => some (.add, left.stripParens, right.stripParens)
  | .apply .sub [left, right] => some (.sub, left.stripParens, right.stripParens)
  | _ => none

theorem size_of_sumParts? {t a b : Tree} {op : Op} (h : t.sumParts? = some (op, a, b)) :
    a.size < t.size ∧ b.size < t.size := by
  unfold sumParts? at h
  split at h
  case h_1 left right =>
    simp only [Option.some.injEq, Prod.mk.injEq] at h
    obtain ⟨-, rfl, rfl⟩ := h
    have := size_stripParens_le left
    have := size_stripParens_le right
    simp only [size, totalSize]
    omega
  case h_2 left right =>
    simp only [Option.some.injEq, Prod.mk.injEq] at h
    obtain ⟨-, rfl, rfl⟩ := h
    have := size_stripParens_le left
    have := size_stripParens_le right
    simp only [size, totalSize]
    omega
  case h_3 => simp at h

/-- The product of two trees without outer parentheses, distributed over the sum that either of them is. -/
def distributeOver (left right : Tree) : Tree :=
  match _hr : right.sumParts? with
  | some (op, a, b) => binary op (distributeOver left a) (distributeOver left b)
  | none =>
    match _hl : left.sumParts? with
    | some (op, a, b) => binary op (distributeOver a right) (distributeOver b right)
    | none => binary .mul left right
termination_by left.size + right.size
decreasing_by
  · have := (size_of_sumParts? _hr).1; omega
  · have := (size_of_sumParts? _hr).2; omega
  · have := (size_of_sumParts? _hl).1; omega
  · have := (size_of_sumParts? _hl).2; omega

/-- Distribute a product; any other tree stays as it is. -/
def distributeNode : Tree → Tree
  | .apply .mul [left, right] => distributeOver left.stripParens right.stripParens
  | t => t

/-- Distribute every product of a tree over the sums in it. -/
def distribute (t : Tree) : Answer Tree :=
  t.rebuild distributeNode

end AlgebraTutor.Tree
