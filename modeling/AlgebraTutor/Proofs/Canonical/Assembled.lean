import AlgebraTutor.Proofs.Canonical.WellFormed
import AlgebraTutor.Proofs.Reader.Rereading

/-!
# What canonical trees are assembled of

Every stage of the canonical form keeps the unknowns of a tree single letters, and what the last simplification answers is
assembled of integers, letters and named constants, by operators and the functions that values are laid out with. The first
tree, which stays if a stage fails, is simplified too.
-/

namespace AlgebraTutor

namespace Tree

variable {t u : Tree}

/-- The tree is well-formed, and its unknowns are single letters. -/
structure IsLettered (t : Tree) : Prop where
  wellFormed : t.WellFormed
  letters : ∀ v ∈ t.unknowns, ∃ c : Char, c.isAlpha = true ∧ v = c.toString

theorem isLettered_of_ofText {text : String} (hread : ofText text = .ok t) : t.IsLettered :=
  ⟨wellFormed_of_ofText hread, fun _ => Reader.isAlpha_of_mem_unknowns_ofText hread⟩

theorem assembled_simplify_of_letters (h : ∀ v ∈ t.unknowns, ∃ c : Char, c.isAlpha = true ∧ v = c.toString)
    (hu : t.simplify = .ok u) : u.Assembled IsReadableName Expr.IsDisplayName :=
  assembled_simplify (fun _ => .inr) (fun v hv => .inl (h v hv)) hu

theorem Assembled.isLettered (h : t.Assembled IsReadableName Expr.IsDisplayName) : t.IsLettered where
  wellFormed := h.wellFormed
  letters v hv := (h.symbols_of_mem_unknowns v hv).resolve_right (by simp [(mem_unknowns.mp hv).2])

theorem IsLettered.simplify (h : t.IsLettered) (hu : t.simplify = .ok u) : u.IsLettered :=
  (assembled_simplify_of_letters h.letters hu).isLettered

namespace IsLettered

variable (h : t.IsLettered)

include h

theorem tidyCoefficients (hu : t.tidyCoefficients = .ok u) : u.IsLettered where
  wellFormed := wellFormed_of_rebuild (fun _ => WellFormed.coefficientNode) hu
  letters v hv := h.letters v (unknowns_rebuild (@Interpretation.keeps_coefficientNode _ _ Tree.interpretation).unknowns hu hv)

theorem withPositiveLead (hu : Canonical.withPositiveLead t = .ok u) : u.IsLettered := by
  obtain ⟨negative, -, hu⟩ := Answer.bind_eq_ok_iff.mp hu
  cases negative with
  | true =>
    refine (assembled_simplify_of_letters (fun v hv => h.letters v ?_) hu).isLettered
    simpa [unknowns_paren] using mem_unknowns_of_negate hv
  | false =>
    obtain rfl := Answer.pure_eq_ok_iff.mp hu
    exact h

theorem withOrderedTerms (hu : t.withOrderedTerms = .ok u) : u.IsLettered := by
  rcases h.wellFormed.withOrderedTerms_eq_ok hu with ⟨rfl, -⟩ | ⟨_, _, -, -, hread⟩
  · exact h
  · exact isLettered_of_ofText hread

theorem multiplyOut {rounds : Nat} (hu : Simplifier.standard.multiplyOut rounds t = .ok u) : u.IsLettered := by
  induction rounds generalizing t with
  | zero =>
    obtain rfl := Except.ok.inj hu
    exact h
  | succ rounds ih =>
    obtain ⟨before, -, hu⟩ := Answer.bind_eq_ok_iff.mp hu
    obtain ⟨reread, hreread, hu⟩ := Answer.bind_eq_ok_iff.mp hu
    obtain ⟨spread, hspread, hu⟩ := Answer.bind_eq_ok_iff.mp hu
    obtain ⟨next, hnext, hu⟩ := Answer.bind_eq_ok_iff.mp hu
    obtain ⟨after, -, hu⟩ := Answer.bind_eq_ok_iff.mp hu
    have hletters : ∀ v ∈ spread.unknowns, ∃ c : Char, c.isAlpha = true ∧ v = c.toString := fun v hv =>
      (isLettered_of_ofText hreread).letters v
        (unknowns_rebuild (@Interpretation.keeps_distributeNode _ _ Tree.interpretation).unknowns hspread hv)
    have hnext := (assembled_simplify_of_letters hletters hnext).isLettered
    split at hu
    · obtain rfl := Answer.pure_eq_ok_iff.mp hu
      exact hnext
    · exact ih hnext hu

end IsLettered

end Tree

open Canonical in
/-- The stages end with a simplification. -/
theorem Tree.IsLettered.runStages {config : Config} {isEquation : Bool} {t u : Tree} (h : t.IsLettered)
    (hu : runStages (stages .standard config isEquation) t = .ok u) : u.Assembled IsReadableName Expr.IsDisplayName := by
  have hfinal {v : Tree} (hv : v.IsLettered) (hu : Canonical.runStages [Tree.withOrderedTerms, Tree.simplify] v = .ok u) :
      u.Assembled IsReadableName Expr.IsDisplayName := by
    obtain ⟨ordered, hordered, hu⟩ := Answer.bind_eq_ok_iff.mp hu
    obtain ⟨last, hlast, hu⟩ := Answer.bind_eq_ok_iff.mp hu
    obtain rfl := Except.ok.inj hu
    exact assembled_simplify_of_letters (hv.withOrderedTerms hordered).letters hlast
  obtain ⟨spread, hspread, hu⟩ := Answer.bind_eq_ok_iff.mp hu
  obtain ⟨tidy, htidy, hu⟩ := Answer.bind_eq_ok_iff.mp hu
  have htidy := (h.multiplyOut hspread).tidyCoefficients htidy
  cases isEquation with
  | false => exact hfinal htidy hu
  | true =>
    obtain ⟨signed, hsigned, hu⟩ := Answer.bind_eq_ok_iff.mp hu
    exact hfinal (htidy.withPositiveLead hsigned) hu

/-- A canonical tree is assembled of integers, letters and named constants, and of the functions of values. -/
theorem assembled_canonicalTree {config : Config} {text : String} {t : Tree} (h : canonicalTree config text = .ok t) :
    t.Assembled Tree.IsReadableName Expr.IsDisplayName := by
  obtain ⟨form, hform, h⟩ := Answer.bind_eq_ok_iff.mp h
  obtain rfl := Answer.pure_eq_ok_iff.mp h
  obtain ⟨p, -, hform⟩ := Answer.bind_eq_ok_iff.mp hform
  obtain ⟨parsed, hparsed, hform⟩ := Answer.bind_eq_ok_iff.mp hform
  obtain ⟨base, hbase, hform⟩ := Answer.bind_eq_ok_iff.mp hform
  obtain rfl := Answer.pure_eq_ok_iff.mp hform
  have hbase := Tree.assembled_simplify_of_letters (Tree.isLettered_of_ofText hparsed).letters hbase
  rw [Canonical.Form.ofBase]
  split
  · rename_i u hu
    exact hbase.isLettered.runStages hu
  · exact hbase

end AlgebraTutor
