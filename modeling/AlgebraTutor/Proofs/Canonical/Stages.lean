import Mathlib.Control.Monad.Basic
import AlgebraTutor.Canonical.Form
import AlgebraTutor.Proofs.Answer

/-!
# Where a run of stages ends

A run of stages either completes, with the answer of its last stage, or stops at the first stage that fails. What comes
after that stage plays no part, and nothing that the stages before it have made is kept: the form falls back on the tree
it began with.
-/

namespace AlgebraTutor.Canonical

/-- Every stage answers, given what the one before it answers, and the last one answers the second tree. -/
inductive Completes : List Stage → Tree → Tree → Prop
  | nil (t : Tree) : Completes [] t t
  | cons {stage : Stage} {rest : List Stage} {t u v : Tree} :
      stage t = .ok u → Completes rest u v → Completes (stage :: rest) t v

/-- The stages before a stage complete, and the stage fails on what they answer. -/
def StopsAt (before : List Stage) (stage : Stage) (t : Tree) (failure : Failure) : Prop :=
  ∃ u, Completes before t u ∧ stage u = .error failure

/-! ### Runs -/

section Runs

variable {stages before : List Stage} {stage : Stage} {t u v : Tree} {failure : Failure}

theorem completes_cons_iff : Completes (stage :: stages) t v ↔ ∃ u, stage t = .ok u ∧ Completes stages u v := by
  constructor
  · intro h
    cases h with
    | cons hstage hrest => exact ⟨_, hstage, hrest⟩
  · intro ⟨u, hstage, hrest⟩
    exact .cons hstage hrest

theorem StopsAt.head (h : stage t = .error failure) : StopsAt [] stage t failure :=
  ⟨t, .nil t, h⟩

theorem StopsAt.cons {first : Stage} (hfirst : first t = .ok u) (h : StopsAt before stage u failure) :
    StopsAt (first :: before) stage t failure := by
  obtain ⟨v, hbefore, hstage⟩ := h
  exact ⟨v, .cons hfirst hbefore, hstage⟩

theorem runStages_eq_ok_iff : runStages stages t = .ok v ↔ Completes stages t v := by
  induction stages generalizing t with
  | nil =>
    constructor
    · intro h
      cases h
      exact .nil v
    · intro h
      cases h
      rfl
  | cons stage rest ih =>
    rw [completes_cons_iff, runStages, Answer.bind_eq_ok_iff]
    simp only [ih]

/-- The stages after one that fails are not run: whatever they are, the run ends with its failure. -/
theorem StopsAt.runStages_eq (h : StopsAt before stage t failure) (later : List Stage) :
    runStages (before ++ stage :: later) t = .error failure := by
  obtain ⟨u, hbefore, hstage⟩ := h
  induction hbefore with
  | nil t => simp only [List.nil_append, runStages, hstage]; rfl
  | cons hfirst _ ih => simp only [List.cons_append, runStages, hfirst, Answer.ok_bind, ih hstage]

/-- A run that fails stops at one of its stages. -/
theorem exists_stopsAt_of_runStages (h : runStages stages t = .error failure) :
    ∃ before stage after, stages = before ++ stage :: after ∧ StopsAt before stage t failure := by
  induction stages generalizing t with
  | nil => cases h
  | cons first rest ih =>
    rcases Answer.bind_eq_error_iff.mp h with hfirst | ⟨u, hfirst, hrest⟩
    · exact ⟨[], first, rest, rfl, .head hfirst⟩
    · obtain ⟨before, stage, after, hsplit, hstops⟩ := ih hrest
      exact ⟨first :: before, stage, after, by rw [hsplit, List.cons_append], hstops.cons hfirst⟩

theorem runStages_eq_error_iff : runStages stages t = .error failure ↔
    ∃ before stage after, stages = before ++ stage :: after ∧ StopsAt before stage t failure := by
  refine ⟨exists_stopsAt_of_runStages, ?_⟩
  intro ⟨before, stage, after, hsplit, hstops⟩
  rw [hsplit]
  exact hstops.runStages_eq after

end Runs

/-! ### Forms -/

section Forms

variable {s : Simplifier} {config : Config} {isEquation : Bool} {base : Tree}

theorem tree_of_degraded (h : (Form.ofBase s config isEquation base).degraded = true) :
    (Form.ofBase s config isEquation base).tree = base := by
  unfold Form.ofBase at h ⊢
  split at h
  · simp at h
  · rfl

theorem degraded_ofBase_eq_false_iff :
    (Form.ofBase s config isEquation base).degraded = false ↔ ∃ u, runStages (stages s config isEquation) base = .ok u := by
  unfold Form.ofBase
  split <;> simp_all

theorem StopsAt.ofBase_eq {before after : List Stage} {stage : Stage} {failure : Failure}
    (h : StopsAt before stage base failure) (hsplit : stages s config isEquation = before ++ stage :: after) :
    Form.ofBase s config isEquation base = ⟨base, isEquation, true⟩ := by
  rw [Form.ofBase, hsplit, h.runStages_eq]

theorem Completes.ofBase_eq {v : Tree} (h : Completes (stages s config isEquation) base v) :
    Form.ofBase s config isEquation base = ⟨v, isEquation, false⟩ := by
  rw [Form.ofBase, runStages_eq_ok_iff.mpr h]

theorem completes_iff_ofBase_eq {v : Tree} :
    Completes (stages s config isEquation) base v ↔ Form.ofBase s config isEquation base = ⟨v, isEquation, false⟩ := by
  refine ⟨Completes.ofBase_eq, ?_⟩
  intro h
  obtain ⟨u, hu⟩ := degraded_ofBase_eq_false_iff.mp (congrArg Form.degraded h)
  have hcompletes := runStages_eq_ok_iff.mp hu
  obtain rfl : u = v := congrArg Form.tree (hcompletes.ofBase_eq.symm.trans h)
  exact hcompletes

theorem degraded_ofBase_eq_true_iff : (Form.ofBase s config isEquation base).degraded = true ↔
    ∃ before stage after failure, stages s config isEquation = before ++ stage :: after ∧ StopsAt before stage base failure := by
  constructor
  · intro h
    cases hrun : runStages (stages s config isEquation) base with
    | ok u => simp [degraded_ofBase_eq_false_iff.mpr ⟨u, hrun⟩] at h
    | error failure =>
      obtain ⟨before, stage, after, hsplit, hstops⟩ := exists_stopsAt_of_runStages hrun
      exact ⟨before, stage, after, failure, hsplit, hstops⟩
  · intro ⟨before, stage, after, failure, hsplit, hstops⟩
    rw [hstops.ofBase_eq hsplit]

theorem Form.ofTextWith_eq_error_iff {text : String} {failure : Failure} :
    Form.ofTextWith s config text = .error failure ↔ Input.ofText text = .error failure ∨
      ∃ p, Input.ofText text = .ok p ∧ (Tree.ofText (source p) = .error failure ∨
        ∃ t, Tree.ofText (source p) = .ok t ∧ s.simplify t = .error failure) := by
  have hanswers {p : Input} {t : Tree} : (s.simplify t >>= fun base => pure (Form.ofBase s config p.isEquation base)) =
      .error failure ↔ s.simplify t = .error failure :=
    Answer.bind_eq_error_iff.trans (or_iff_left nofun)
  simp only [Form.ofTextWith, Answer.bind_eq_error_iff, hanswers]

theorem Form.ofTextWith_eq_ofBase {text : String} {p : Input} {t : Tree} (hp : Input.ofText text = .ok p)
    (ht : Tree.ofText (source p) = .ok t) (hbase : s.simplify t = .ok base) :
    Form.ofTextWith s config text = .ok (Form.ofBase s config p.isEquation base) := by
  simp only [Form.ofTextWith, hp, ht, hbase, Answer.ok_bind]
  rfl

/-- A text has no canonical form only if it is no input, cannot be read or cannot be simplified at first. Otherwise it has
one, whatever becomes of the stages: where a stage fails, the form is degraded and has the first tree, the stages before
the failure leave no mark on it, and those after it are not run. The form is degraded only then; the others complete, and
have the tree that the last stage answers. -/
theorem Form.ofTextWith_fallsBack (s : Simplifier) (config : Config) (text : String) :
    (∀ failure, Form.ofTextWith s config text = .error failure ↔ Input.ofText text = .error failure ∨
      ∃ p, Input.ofText text = .ok p ∧ (Tree.ofText (source p) = .error failure ∨
        ∃ t, Tree.ofText (source p) = .ok t ∧ s.simplify t = .error failure)) ∧
    ∀ p t base, Input.ofText text = .ok p → Tree.ofText (source p) = .ok t → s.simplify t = .ok base →
      ∃ form, Form.ofTextWith s config text = .ok form ∧
        (∀ before stage after failure, stages s config p.isEquation = before ++ stage :: after →
          StopsAt before stage base failure →
          form = ⟨base, p.isEquation, true⟩ ∧ ∀ later, runStages (before ++ stage :: later) base = .error failure) ∧
        (form.degraded = true ↔ ∃ before stage after failure,
          stages s config p.isEquation = before ++ stage :: after ∧ StopsAt before stage base failure) ∧
        (form.degraded = false ↔ ∃ v, Completes (stages s config p.isEquation) base v) ∧
        ∀ v, Completes (stages s config p.isEquation) base v ↔ form = ⟨v, p.isEquation, false⟩ := by
  refine ⟨fun failure => Form.ofTextWith_eq_error_iff, ?_⟩
  intro p t base hp ht hbase
  refine ⟨_, Form.ofTextWith_eq_ofBase hp ht hbase, ?_, degraded_ofBase_eq_true_iff, ?_, fun v => completes_iff_ofBase_eq⟩
  · intro before stage after failure hsplit hstops
    exact ⟨hstops.ofBase_eq hsplit, hstops.runStages_eq⟩
  · simp only [degraded_ofBase_eq_false_iff, runStages_eq_ok_iff]

/-- A simplifier that cannot tell the sign of a tree: the equation keeps the difference of its sides as it is simplified
at first. -/
theorem Form.ofTextWith_signless :
    ∃ s : Simplifier, Input.ofText "4 = 2x" = .ok ⟨"4 = 2x", some ("4", "2x")⟩ ∧
      Form.ofTextWith s .standard "4 = 2x" = .ok ⟨.apply .sub [.const 4, .apply .mul [.const 2, .symbol "x"]], true, true⟩ := by
  let s : Simplifier := ⟨Tree.simplify, fun _ => .error .unrepresentable⟩
  let base : Tree := .apply .sub [.const 4, .apply .mul [.const 2, .symbol "x"]]
  have hp : Input.ofText "4 = 2x" = .ok ⟨"4 = 2x", some ("4", "2x")⟩ := by decide +kernel
  obtain ⟨form, hform, hstopped, -⟩ := (Form.ofTextWith_fallsBack s .standard "4 = 2x").2 _
    base base hp (by decide +kernel) (by decide +kernel)
  have hexpanded : s.multiplyOut Config.standard.maxExpansions base = .ok base := by decide +kernel
  have htidied : base.tidyCoefficients = .ok base := by decide +kernel
  have hstops : StopsAt [s.multiplyOut Config.standard.maxExpansions, Tree.tidyCoefficients] s.withPositiveLead base
      .unrepresentable := ⟨base, .cons hexpanded (.cons htidied (.nil base)), rfl⟩
  obtain ⟨rfl, -⟩ := hstopped _ _ [Tree.withOrderedTerms, s.simplify] _ rfl hstops
  exact ⟨s, hp, hform⟩

end Forms

end AlgebraTutor.Canonical
