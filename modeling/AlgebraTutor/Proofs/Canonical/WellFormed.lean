import AlgebraTutor.Canonical.Form
import AlgebraTutor.Proofs.Canonical.TermOrder
import AlgebraTutor.Proofs.Reader.Unknowns
import AlgebraTutor.Proofs.Tree.Layout
import AlgebraTutor.Proofs.Tree.Valuation

/-!
# Well-formed answers

Reading, simplifying and the stages of the canonical form answer well-formed trees only, so parentheses stand where
precedence asks for them wherever a tree is printed or compared.
-/

namespace AlgebraTutor

namespace Tree

variable {t u : Tree}

theorem wellFormed_of_ofText {text : String} (hread : ofText text = .ok t) : t.WellFormed :=
  Reader.ofText_induction (fun _ _ => .symbol _) (fun _ _ => .symbol _) .const (fun _ => .negate)
    (fun _ _ _ hop => .binary hop) (fun f _ _ _ => .call f) hread

/-! ### Stages of the canonical form -/

theorem WellFormed.of_withOrderedTerms (h : t.WellFormed) (hu : t.withOrderedTerms = .ok u) : u.WellFormed := by
  rcases h.withOrderedTerms_eq_ok hu with ⟨rfl, -⟩ | ⟨_, _, -, -, hread⟩
  · exact h
  · exact wellFormed_of_ofText hread

/-- The choice between a tree and its negative keeps a well-formed tree well-formed. -/
theorem WellFormed.of_withPositiveLead (h : t.WellFormed) (hu : Canonical.withPositiveLead t = .ok u) : u.WellFormed := by
  obtain ⟨negative, -, hu⟩ := Answer.bind_eq_ok_iff.mp hu
  split at hu
  · exact wellFormed_of_simplify hu
  · obtain rfl := Answer.pure_eq_ok_iff.mp hu
    exact h

/-- Whatever reads, simplifies or rearranges trees answers well-formed ones. Rebuilding any tree at all fails exactly if some
operator stands over a wrong number of operands, and else answers a well-formed tree of the same value, whatever the
symbols, the powers and the functions mean. -/
theorem wellFormed_of_answers_and_rebuild :
    (∀ text t, ofText text = .ok t → t.WellFormed) ∧
    (∀ t u : Tree, t.simplify = .ok u ∨ t.expand = .ok u → u.WellFormed) ∧
    (∀ t u : Tree, t.tidyCoefficients = .ok u ∨ t.distribute = .ok u ∨ t.withDecimals = .ok u → u.WellFormed) ∧
    (∀ t u : Tree, t.WellFormed → Canonical.withPositiveLead t = .ok u ∨ t.withOrderedTerms = .ok u → u.WellFormed) ∧
    ∀ t : Tree,
      ((∃ failure, t.rebuild id = .error failure) ↔ ∃ op args, .apply op args ∈ t.nodes ∧ ¬op.Takes args.length) ∧
      (∀ failure, t.rebuild id = .error failure →
        ∃ op args, .apply op args ∈ t.nodes ∧ ¬op.Takes args.length ∧ failure = .operandCount op.sign args.length) ∧
      ∀ u, t.rebuild id = .ok u → u.WellFormed ∧
        ∀ {K : Type} [Field K] [DecidableEq K] (v : Valuation K), v.value u = v.value t := by
  refine ⟨fun _ _ => wellFormed_of_ofText, fun t u h => ?_, fun t u h => ?_, fun t u ht h => ?_, fun t =>
    ⟨exists_rebuild_eq_error_iff, fun _ => exists_node_of_rebuild_eq_error, fun u h =>
      ⟨wellFormed_of_rebuild (fun _ => id) h, fun v => v.value_of_rebuild_id h⟩⟩⟩
  · rcases h with h | h
    · exact wellFormed_of_simplify h
    · exact wellFormed_of_expand h
  · rcases h with h | h | h
    · exact wellFormed_of_rebuild (fun _ => WellFormed.coefficientNode) h
    · exact wellFormed_of_rebuild (fun _ => WellFormed.distributeNode) h
    · exact wellFormed_of_rebuild (fun _ => WellFormed.decimalNode) h
  · rcases h with h | h
    · exact ht.of_withPositiveLead h
    · exact ht.of_withOrderedTerms h

/-- What `2 - x*(x - 1)` is read as, what becomes of it, and two trees that no text is read as: a sum of one term, and one with
needless parentheses. -/
theorem wellFormed_of_answers_and_rebuild_difference :
    let x := symbol "x"
    let t := binary .sub (.const 2) (binary .mul x (binary .sub x (.const 1)))
    let square := binary .pow x (.const 2)
    let positive := binary .sub (binary .sub square x) (.const 2)
    let spread := binary .sub (.const 2) (binary .sub (binary .mul x x) (binary .mul x (.const 1)))
    let ordered := binary .add (binary .mul x.negate (binary .sub x (.const 1))) (.const 2)
    (ofText "2 - x*(x - 1)" = .ok t ∧ t.WellFormed) ∧ (t.distribute = .ok spread ∧ spread.WellFormed) ∧
      (Canonical.withPositiveLead spread = .ok positive ∧ positive.WellFormed) ∧
      (t.withOrderedTerms = .ok ordered ∧ ordered.WellFormed) ∧ (positive.simplify = .ok positive ∧ positive.WellFormed) ∧
      (∃ failure, (apply .add [x]).rebuild id = .error failure) ∧
      (apply .sub [.paren (.paren x)]).rebuild id = .ok x.negate ∧ x.negate.WellFormed := by
  intro x t square positive spread ordered
  have hread : ofText "2 - x*(x - 1)" = .ok t := by decide +kernel
  have hspread : t.distribute = .ok spread := by decide +kernel
  have hpositive : Canonical.withPositiveLead spread = .ok positive := by decide +kernel
  have hordered : t.withOrderedTerms = .ok ordered := by decide +kernel
  have hsimplify : positive.simplify = .ok positive := by decide +kernel
  have hrebuild : (apply .sub [.paren (.paren x)]).rebuild id = .ok x.negate := by decide +kernel
  obtain ⟨hreads, hsimplifies, hpasses, hstages, hrebuilds⟩ := wellFormed_of_answers_and_rebuild
  have ht := hreads _ _ hread
  have hwell := hpasses _ _ (.inr (.inl hspread))
  exact ⟨⟨hread, ht⟩, ⟨hspread, hwell⟩, ⟨hpositive, hstages _ _ hwell (.inl hpositive)⟩,
    ⟨hordered, hstages _ _ ht (.inr hordered)⟩, ⟨hsimplify, hsimplifies _ _ (.inl hsimplify)⟩,
    (hrebuilds _).1.mpr ⟨.add, [x], List.mem_cons_self, by simp [Op.Takes]⟩, hrebuild, ((hrebuilds _).2.2 _ hrebuild).1⟩

end Tree

end AlgebraTutor
