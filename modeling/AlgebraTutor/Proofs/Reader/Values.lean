import AlgebraTutor.Proofs.Reader.Spelling
import AlgebraTutor.Proofs.Reader.Text
import AlgebraTutor.Proofs.Tree.Unknowns

/-!
# The numbers of what is read

No number of a text is lost when it is read: the tree holds its value or, behind a sign, the negative of it.
-/

namespace AlgebraTutor

namespace Tree

/-- The tree holds the number or its negative. -/
def HasNumber (t : Tree) (q : Rat) : Prop :=
  .const q ∈ t.nodes ∨ .const (-q) ∈ t.nodes

variable {t u : Tree} {q : Rat}

theorem hasNumber_const {value : Rat} : (const value).HasNumber q ↔ value = q ∨ value = -q := by
  simp [HasNumber, nodes, eq_comm]

theorem hasNumber_paren : (paren t).HasNumber q ↔ t.HasNumber q := by
  simp [HasNumber, nodes]

theorem hasNumber_stripParens : t.stripParens.HasNumber q ↔ t.HasNumber q := by
  induction t using stripParens.induct with
  | case1 content ih => rw [stripParens, ih, hasNumber_paren]
  | case2 t h => rw [stripParens]; simpa using h

theorem hasNumber_parenIf {needed : Bool} : (parenIf needed t).HasNumber q ↔ t.HasNumber q := by
  cases needed
  · rfl
  · exact hasNumber_paren

theorem hasNumber_apply {op : Op} {args : List Tree} : (apply op args).HasNumber q ↔ ∃ a ∈ args, a.HasNumber q := by
  simp only [HasNumber, nodes, List.mem_cons, reduceCtorEq, false_or, mem_nodesAll, ← exists_or, ← and_or_left]

theorem hasNumber_binary {op : Op} : (binary op t u).HasNumber q ↔ t.HasNumber q ∨ u.HasNumber q := by
  simp [binary, hasNumber_apply, hasNumber_parenIf, hasNumber_stripParens]

theorem hasNumber_call {f : String} {ts : List Tree} : (call f ts).HasNumber q ↔ ∃ t ∈ ts, t.HasNumber q := by
  simp [call, hasNumber_apply, hasNumber_stripParens]

theorem HasNumber.negate (h : t.HasNumber q) : t.negate.HasNumber q := by
  rw [← hasNumber_stripParens] at h
  unfold Tree.negate
  split
  · rename_i value heq
    rw [heq, hasNumber_const] at h
    rw [hasNumber_const]
    rcases h with rfl | rfl
    · exact .inr rfl
    · exact .inl (Rat.neg_neg q)
  · rw [hasNumber_apply]
    exact ⟨_, List.mem_singleton_self _, hasNumber_parenIf.mpr h⟩

end Tree

namespace Reader

open Phrase (leaves leavesAll)

/-- The literals of a phrase that stands for a tree have values, and the tree holds them. -/
theorem hasNumber_of_mem_leaves {text : String} {vars : List Char} {p : Phrase} {t : Tree}
    (hread : treeOf text vars p = .ok t) {l : Literal} (hl : .literal l ∈ p.leaves) :
    ∃ value, l.value? = some value ∧ t.HasNumber value := by
  refine reading_induction (P := fun p t => .literal l ∈ p.leaves → ∃ value, l.value? = some value ∧ t.HasNumber value)
    ?_ ?_ ?_ ?_ (fun p t ih hl => (ih hl).imp fun _ h => h.imp_right Tree.HasNumber.negate) (fun p t ih => ih) ?_ hread hl
  · intro n _ hl
    simp [leaves] at hl
  · intro f m value _ hvalue hl
    obtain rfl : l = m := by simpa [leaves, leavesAll] using hl
    exact ⟨value, hvalue, Tree.hasNumber_const.mpr (.inl rfl)⟩
  · intro s hl
    simp [leaves, leavesAll] at hl
  · intro f ps ts _ _ hts hl
    obtain ⟨p, hp, hl⟩ := Phrase.mem_leavesAll.mp (by simpa [leaves] using hl : .literal l ∈ leavesAll ps)
    obtain ⟨t, ht, ih⟩ := exists_of_forall₂ hts hp
    obtain ⟨value, hvalue, hhas⟩ := ih hl
    exact ⟨value, hvalue, Tree.hasNumber_call.mpr ⟨t, ht, hhas⟩⟩
  · intro op o p q t u _ ihp ihq hl
    rcases List.mem_append.mp hl with hl | hl
    · obtain ⟨value, hvalue, hhas⟩ := ihp hl
      exact ⟨value, hvalue, Tree.hasNumber_binary.mpr (.inl hhas)⟩
    · obtain ⟨value, hvalue, hhas⟩ := ihq hl
      exact ⟨value, hvalue, Tree.hasNumber_binary.mpr (.inr hhas)⟩

theorem mem_spell_of_number {vars : List Char} {afterDot : Bool} {ls : List Lexeme} {l : Literal} {isImaginary : Bool}
    (hl : .number l isImaginary ∈ ls) : .literal l ∈ spell vars afterDot ls := by
  induction ls generalizing afterDot with
  | nil => simp at hl
  | cons x ls ih =>
    rcases List.mem_cons.mp hl with rfl | hlater
    · simp [spell, spellNumber, callOn]
    · cases x <;> simp [spell, ih hlater]

/-- No number of a text is lost: the tree that is read from it holds its value, up to a sign. -/
theorem hasNumber_of_ofText {text : String} {t : Tree} (hread : Tree.ofText text = .ok t) {ls : List Lexeme}
    (hls : LexedAs (Text.plain text.toList) ls) {l : Literal} {isImaginary : Bool} (hl : .number l isImaginary ∈ ls) :
    ∃ value, l.value? = some value ∧ t.HasNumber value := by
  obtain ⟨-, -, ls', hls', -, p, ⟨us, happly, hphrase⟩, htree⟩ := (ofText_eq_ok_iff rfl).mp hread
  obtain rfl : ls' = ls := Option.some.inj ((lexemes?_eq_some_iff.mpr hls').symm.trans (lexemes?_eq_some_iff.mpr hls))
  exact hasNumber_of_mem_leaves htree
    ((mem_leaves_iff happly hphrase (isProper_of_treeOf htree) rfl (by simp)).mpr (mem_spell_of_number hl))

end Reader

end AlgebraTutor
