import Mathlib.Data.List.Chain
import AlgebraTutor.Proofs.Text.Display
import AlgebraTutor.Proofs.Text.Letters
import AlgebraTutor.Text.Blank

/-!
# Stars side by side

Spelling out the products of a text sets every star between two letters, so it sets no two of them side by side.
-/

namespace AlgebraTutor.Text

/-- The characters are not both stars. -/
def Apart (c d : Char) : Prop :=
  c = '*' → d ≠ '*'

theorem isChain_apart_iff {cs : List Char} : cs.IsChain Apart ↔ containsChars ['*', '*'] cs = false := by
  induction cs with
  | nil => simp [containsChars]
  | cons c cs ih =>
    rw [List.isChain_cons, containsChars, ih, Bool.or_eq_false_iff]
    refine and_congr_left fun _ => ?_
    cases cs with
    | nil => simp [List.isPrefixOf]
    | cons d cs =>
      have hhead : List.isPrefixOf ['*', '*'] (c :: d :: cs) = ('*' == c && '*' == d) := by simp [List.isPrefixOf]
      rw [hhead, Bool.and_eq_false_imp, beq_iff_eq, beq_eq_false_iff_ne]
      simp only [List.head?_cons, Option.mem_def, Option.some.injEq, forall_eq', Apart, ne_eq]
      rw [eq_comm, @eq_comm _ d]

section Products

variable {vars : List Char} {w rest : List Char}

theorem isChain_apart_cons {c : Char} (hc : c.isAlpha = true) (hrest : rest.IsChain Apart) : (c :: rest).IsChain Apart := by
  refine List.isChain_cons.mpr ⟨fun _ _ heq => ?_, hrest⟩
  subst heq
  exact absurd hc (by decide)

theorem isChain_apart_append (hw : ∀ c ∈ w, c.isAlpha = true) (hrest : rest.IsChain Apart) : (w ++ rest).IsChain Apart := by
  induction w with
  | nil => exact hrest
  | cons c w ih =>
    rw [List.forall_mem_cons] at hw
    exact isChain_apart_cons hw.1 (ih hw.2)

theorem isChain_apart_spellRun (hw : ∀ c ∈ w, c.isAlpha = true) (hrest : rest.IsChain Apart) :
    (spellRun w ++ rest).IsChain Apart := by
  fun_induction spellRun w with
  | case1 => exact hrest
  | case2 c => exact isChain_apart_append hw hrest
  | case3 c d cs ih =>
    rw [List.forall_mem_cons] at hw
    have hd : d ≠ '*' := by
      rintro rfl
      exact absurd (hw.2 _ List.mem_cons_self) (by decide)
    refine isChain_apart_cons hw.1 (List.isChain_cons.mpr ⟨fun e he _ => ?_, ih hw.2⟩)
    have hhead : e = d := by cases cs <;> simpa [spellRun, eq_comm] using he
    exact hhead ▸ hd

theorem head?_spellProducts (cs : List Char) : (spellProducts vars cs).head? = cs.head? := by
  induction cs using letters_induction with
  | nil => rfl
  | other c cs hc _ => rw [spellProducts_other hc, List.head?_cons, List.head?_cons]
  | run w rest hne hw hrest _ =>
    obtain ⟨c, w, rfl⟩ := List.exists_cons_of_ne_nil hne
    rw [spellProducts_run hne hw hrest, spelledRun]
    split
    · cases w <;> rfl
    · rfl

/-- Where no two stars stand side by side, none do once products are spelled out. -/
theorem isChain_apart_spellProducts {cs : List Char} (h : cs.IsChain Apart) : (spellProducts vars cs).IsChain Apart := by
  induction cs using letters_induction with
  | nil => exact .nil
  | other c cs hc ih =>
    rw [List.isChain_cons] at h
    rw [spellProducts_other hc]
    exact List.isChain_cons.mpr ⟨by rw [head?_spellProducts]; exact h.1, ih h.2⟩
  | run w rest hne hw hrest ih =>
    rw [spellProducts_run hne hw hrest, spelledRun]
    split
    · exact isChain_apart_spellRun hw (ih h.right_of_append)
    · exact isChain_apart_append hw (ih h.right_of_append)

end Products

/-! ### Plain texts -/

theorem isChain_apart_of_ne {c : Char} (hc : c ≠ '*') {cs : List Char} (hcs : cs.IsChain Apart) : (c :: cs).IsChain Apart :=
  List.isChain_cons.mpr ⟨fun _ _ heq => absurd heq hc, hcs⟩

/-- Between two texts that have no two stars side by side, the characters at the joint are not both stars. -/
theorem isChain_apart_join {cs ds : List Char} (hcs : cs.IsChain Apart) (hds : ds.IsChain Apart)
    (hjoint : '*' ∉ cs.getLast? ∨ '*' ∉ ds.head?) : (cs ++ ds).IsChain Apart := by
  refine List.isChain_append.mpr ⟨hcs, hds, fun c hc d hd hstar hstar' => ?_⟩
  subst hstar hstar'
  exact hjoint.elim (absurd hc) (absurd hd)

theorem isChain_apart_lowerPi {afterLetter : Bool} {cs : List Char} (hcs : cs.IsChain Apart) :
    (lowerPi afterLetter cs).IsChain Apart := by
  have hhead (afterLetter : Bool) (cs : List Char) (h : '*' ∈ (lowerPi afterLetter cs).head?) : '*' ∈ cs.head? := by
    fun_cases lowerPi afterLetter cs with
    | case1 => simp [lowerPi] at h
    | case2 i cs hpi =>
      rw [lowerPi, if_pos hpi] at h
      simp at h
    | case3 i cs hpi =>
      rw [lowerPi, if_neg hpi] at h
      simp at h
    | case4 d cs hp =>
      rw [lowerPi] at h
      · exact h
      · exact hp
  fun_induction lowerPi afterLetter cs with
  | case1 => exact .nil
  | case2 afterLetter i cs hpi ih => exact isChain_apart_of_ne (by decide) (isChain_apart_of_ne (by decide) (ih hcs.tail.tail))
  | case3 afterLetter i cs hpi ih => exact isChain_apart_of_ne (by decide) (ih hcs.tail)
  | case4 afterLetter d cs hp ih =>
    refine List.isChain_cons.mpr ⟨fun e he hstar hstar' => ?_, ih hcs.tail⟩
    subst hstar hstar'
    exact (List.isChain_cons.mp hcs).1 '*' (hhead _ _ he) rfl rfl

theorem isChain_apart_setOffLetters {cs : List Char} (hcs : cs.IsChain Apart) : (setOffLetters cs).IsChain Apart := by
  fun_induction setOffLetters cs with
  | case1 => exact .nil
  | case2 d l cs hset ih =>
    simp only [Bool.and_eq_true] at hset
    have hd : d ≠ '*' := by
      rintro rfl
      exact absurd hset.1.1 (by decide)
    have hl : l ≠ '*' := by
      rintro rfl
      exact absurd hset.1.2 (by decide)
    refine isChain_apart_of_ne hd (List.isChain_cons_cons.mpr ⟨fun _ => hl, isChain_apart_of_ne hl (ih hcs.tail.tail)⟩)
  | case3 d l cs hset ih =>
    obtain ⟨hjoint, htail⟩ := List.isChain_cons_cons.mp hcs
    exact List.isChain_cons.mpr ⟨by rw [head?_setOffLetters]; simpa using hjoint, ih htail⟩
  | case4 c => exact .singleton c

end AlgebraTutor.Text
