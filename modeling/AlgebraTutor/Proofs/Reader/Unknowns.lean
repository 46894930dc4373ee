import AlgebraTutor.Proofs.Reader.Spelling
import AlgebraTutor.Proofs.Reader.Text

/-!
# The unknowns and the functions of what is read

What is read from a text has single letters for unknowns: its names are variables of the text, and what is quoted is one
letter of it. It calls only functions that a learner may write.
-/

namespace AlgebraTutor.Reader

open Phrase (leaves)

/-- A text that is read spells a phrase whose literals are written in the text, and whose quoted texts are letters. -/
theorem exists_phrase_of_ofText {text : String} {t : Tree} (hread : Tree.ofText text = .ok t) :
    ∃ vars p ls, LexedAs (Text.plain text.toList) ls ∧ treeOf text vars p = .ok t ∧ (∀ c ∈ vars, c.isAlpha = true) ∧
      (∀ l, .literal l ∈ p.leaves → ∃ isImaginary, .number l isImaginary ∈ ls) ∧
        ∀ s, .quoted s ∈ p.leaves → ∃ c : Char, c.isAlpha = true ∧ s = c.toString := by
  obtain ⟨-, -, ls, hls, -, p, ⟨us, happly, hphrase⟩, htree⟩ := (ofText_eq_ok_iff rfl).mp hread
  have hleaves {v : Token} (hleaf : isLeaf v = true) (hfinish : v ≠ .finish) :
      v ∈ p.leaves ↔ v ∈ spell (Text.variableLetters (Text.plain text.toList)) false ls :=
    mem_leaves_iff happly hphrase (isProper_of_treeOf htree) hleaf hfinish
  have hnumber : .word "Number" ∉ spell (Text.variableLetters (Text.plain text.toList)) false ls := by
    rw [← hleaves rfl (by simp)]
    intro hword
    rcases word_of_mem_leaves htree hword with ⟨c, -, hc⟩ | hconstant | hcallable
    · have hlength : "Number".length = 1 := by simpa using congrArg String.length hc
      exact absurd hlength (by decide)
    · exact absurd hconstant (by decide)
    · exact absurd hcallable (by decide)
  refine ⟨_, p, ls, hls, htree, fun c hc => (Text.mem_variableLetters.mp hc).isAlpha, fun l hl => ?_, fun s hs => ?_⟩
  · exact literal_mem_spell ((hleaves rfl (by simp)).mp hl)
  · exact letter_of_quoted_mem_spell ((hleaves rfl (by simp)).mp hs) (fun w hw c hc => hls.isAlphanum_of_word hw hc) hnumber

/-- A property of numbers, letters and named constants that signs, operators and calls of functions keep is one of every tree
that is read from a text. -/
theorem ofText_induction {P : Tree → Prop} (letter : ∀ c : Char, c.isAlpha = true → P (.symbol c.toString))
    (named : ∀ n, Tree.isNamedConstant n = true → P (.symbol n)) (number : ∀ value, P (.const value))
    (negate : ∀ t, P t → P t.negate) (binary : ∀ op t u, op.isArithmetic = true → P t → P u → P (.binary op t u))
    (call : ∀ f ts, f ∈ Text.functionNames → ts ≠ [] → (∀ t ∈ ts, P t) → P (.call f ts)) {text : String} {t : Tree}
    (hread : Tree.ofText text = .ok t) : P t := by
  obtain ⟨vars, p, ls, -, htree, hvars, -, hquoted⟩ := exists_phrase_of_ofText hread
  refine treeOf_induction (fun n hn => ?_) negate binary call (fun _ value _ _ => number value) (fun s hs => ?_) htree
  · rcases hn with ⟨c, hc, rfl⟩ | hconstant
    · exact letter c (hvars c hc)
    · exact named n hconstant
  · obtain ⟨c, hc, rfl⟩ := hquoted s hs
    exact letter c hc

/-- The unknowns of what is read from a text are single letters. -/
theorem isAlpha_of_mem_unknowns_ofText {text : String} {t : Tree} (hread : Tree.ofText text = .ok t) {v : String}
    (hv : v ∈ t.unknowns) : ∃ c : Char, c.isAlpha = true ∧ v = c.toString := by
  refine ofText_induction (P := fun t => ∀ v ∈ t.unknowns, ∃ c : Char, c.isAlpha = true ∧ v = c.toString)
    (fun c hc v hv => ?_) (fun n hn v hv => ?_) (fun value v hv => ?_) (fun t ih v hv => ih v (Tree.mem_unknowns_of_negate hv))
    (fun op t u _ iht ihu v hv => (Tree.mem_unknowns_binary.mp hv).elim (iht v) (ihu v)) (fun f ts _ _ ih v hv => ?_) hread v hv
  · exact ⟨c, hc, by simpa [Tree.nodes] using (Tree.mem_unknowns.mp hv).1⟩
  · obtain ⟨hmem, hunknown⟩ := Tree.mem_unknowns.mp hv
    obtain rfl : v = n := by simpa [Tree.nodes] using hmem
    simp [hunknown] at hn
  · simp [Tree.unknowns_const] at hv
  · rw [Tree.call, Tree.mem_unknowns_apply] at hv
    obtain ⟨t, ht, hv⟩ : ∃ t ∈ ts, v ∈ t.unknowns := by simpa [Tree.unknowns_stripParens] using hv
    exact ih t ht v hv

/-- What is read from a text calls only the functions that a learner may write. -/
theorem callsOnly_ofText {text : String} {t : Tree} (hread : Tree.ofText text = .ok t) :
    t.CallsOnly (· ∈ Text.functionNames) :=
  ofText_induction (fun _ _ => Tree.callsOnly_symbol _) (fun _ _ => Tree.callsOnly_symbol _) Tree.callsOnly_const
    (fun _ => Tree.callsOnly_negate.mpr) (fun _ _ _ hop ht hu => (Tree.callsOnly_binary hop).mpr ⟨ht, hu⟩)
    (fun _ _ hf _ hts => Tree.callsOnly_call.mpr ⟨hf, hts⟩) hread

end AlgebraTutor.Reader
