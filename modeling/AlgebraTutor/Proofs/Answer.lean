import Mathlib.Data.List.Forall2
import AlgebraTutor.Error

/-!
# Answers of operations in a row

An operation that is made of others answers exactly if each of them does, and fails with the first failure among them.
The lemmas take such an answer apart; no later proof opens the monad. A list of answers is related to what was asked element by
element.
-/

namespace AlgebraTutor.Answer

variable {α β : Type}

theorem bind_eq_ok_iff {x : Answer α} {f : α → Answer β} {b : β} : x >>= f = .ok b ↔ ∃ a, x = .ok a ∧ f a = .ok b := by
  cases x with
  | error failure => exact ⟨nofun, fun ⟨_, h, _⟩ => nomatch h⟩
  | ok a => exact ⟨fun h => ⟨a, rfl, h⟩, fun ⟨_, h, hf⟩ => by cases h; exact hf⟩

theorem bind_eq_error_iff {x : Answer α} {f : α → Answer β} {failure : Failure} :
    x >>= f = .error failure ↔ x = .error failure ∨ ∃ a, x = .ok a ∧ f a = .error failure := by
  cases x with
  | error failure' => exact ⟨fun h => .inl (by cases h; rfl), fun h => h.elim (fun h => by cases h; rfl) nofun⟩
  | ok a => exact ⟨fun h => .inr ⟨a, rfl, h⟩, fun h => h.elim nofun fun ⟨_, h, hf⟩ => by cases h; exact hf⟩

@[simp] theorem map_eq_ok_iff {x : Answer α} {f : α → β} {b : β} : f <$> x = .ok b ↔ ∃ a, x = .ok a ∧ f a = b := by
  cases x with
  | error failure => exact ⟨nofun, fun ⟨_, h, _⟩ => nomatch h⟩
  | ok a => exact ⟨fun h => ⟨a, rfl, Except.ok.inj h⟩, fun ⟨_, h, hf⟩ => by cases h; exact congrArg _ hf⟩

@[simp] theorem pure_eq_ok_iff {a b : α} : (pure a : Answer α) = .ok b ↔ a = b :=
  ⟨fun h => by cases h; rfl, fun h => h ▸ rfl⟩

@[simp] theorem ok_bind (a : α) (f : α → Answer β) : (Except.ok a : Answer α) >>= f = f a :=
  rfl

theorem exists_of_isOk {x : Answer α} (h : x.isOk = true) : ∃ a, x = .ok a := by
  cases x with
  | error failure => exact Bool.noConfusion h
  | ok a => exact ⟨a, rfl⟩

/-! ### Answers about lists -/

variable {P : β → Prop}

theorem forall_of_mapM_eq_ok {f : α → Answer β} {l : List α} {l' : List β} (hf : ∀ a ∈ l, ∀ b, f a = .ok b → P b)
    (h : l.mapM f = .ok l') : ∀ b ∈ l', P b := by
  induction l generalizing l' with
  | nil =>
    obtain rfl := pure_eq_ok_iff.mp (List.mapM_nil (m := Answer) ▸ h)
    simp
  | cons a l ih =>
    rw [List.mapM_cons] at h
    obtain ⟨b, hb, h⟩ := bind_eq_ok_iff.mp h
    obtain ⟨bs, hbs, heq⟩ := bind_eq_ok_iff.mp h
    obtain rfl := pure_eq_ok_iff.mp heq
    obtain ⟨ha, hl⟩ := List.forall_mem_cons.mp hf
    exact List.forall_mem_cons.mpr ⟨ha b hb, ih hl hbs⟩

theorem of_foldlM_eq_ok {f : β → α → Answer β} {l : List α} {b b' : β}
    (hf : ∀ a ∈ l, ∀ b b', P b → f b a = .ok b' → P b') (hb : P b) (h : l.foldlM f b = .ok b') : P b' := by
  induction l generalizing b with
  | nil => exact pure_eq_ok_iff.mp h ▸ hb
  | cons a l ih =>
    rw [List.foldlM_cons] at h
    obtain ⟨c, hc, h⟩ := bind_eq_ok_iff.mp h
    obtain ⟨ha, hl⟩ := List.forall_mem_cons.mp hf
    exact ih hl (ha b c hb hc) h

end AlgebraTutor.Answer

namespace AlgebraTutor

/-! ### Lists that are related element by element -/

theorem exists_of_forall₂ {α β : Type} {R : α → β → Prop} {xs : List α} {ys : List β} (h : List.Forall₂ R xs ys) {x : α} (hx : x ∈ xs) :
    ∃ y ∈ ys, R x y := by
  obtain ⟨i, hi, rfl⟩ := List.getElem_of_mem hx
  have hlength : i < ys.length := h.length_eq ▸ hi
  exact ⟨ys.get ⟨i, hlength⟩, List.get_mem _ _, h.get hi hlength⟩

theorem exists_forall₂ {α β : Type} {R : α → β → Prop} {xs : List α} (h : ∀ x ∈ xs, ∃ y, R x y) : ∃ ys, List.Forall₂ R xs ys := by
  induction xs with
  | nil => exact ⟨[], .nil⟩
  | cons x xs ih =>
    obtain ⟨⟨y, hy⟩, hxs⟩ := List.forall_mem_cons.mp h
    obtain ⟨ys, hys⟩ := ih hxs
    exact ⟨y :: ys, .cons hy hys⟩

end AlgebraTutor
