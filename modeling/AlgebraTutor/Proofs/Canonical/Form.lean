import AlgebraTutor.Canonical.Form
import AlgebraTutor.Proofs.Canonical.TermOrder

/-!
# The stages of the canonical form

A simplifier is lawful for a reading of trees if its results depend on the value alone and have that value. No stage changes
the value of a tree but the choice of the sign, so what the last simplification answers is what the first one answered, or
the normal form of its negative.
-/

namespace AlgebraTutor

variable {R : Type} [CommRing R]

/-- What the stages rely on: the simplifier answers trees of one value with one tree of that value, which is built of
integers and letters, and what leads a result does not depend on how its coefficients are written. -/
structure Simplifier.Lawful (s : Simplifier) (D : Interpretation R) : Prop where
  unique : ∀ {t u : Tree} {f : R}, D.Holds t f → D.Holds u f → s.simplify t = s.simplify u
  holds : ∀ {t v : Tree} {f : R}, D.Holds t f → s.simplify t = .ok v → D.Holds v f
  built : ∀ {t v : Tree} {f : R}, D.Holds t f → s.simplify t = .ok v → v.Built
  lead : ∀ {t v w : Tree} {f : R}, D.Holds t f → s.simplify t = .ok v → v.tidyCoefficients = .ok w →
    s.hasNegativeLead w = s.hasNegativeLead v

namespace Simplifier.Lawful

variable {s : Simplifier} {D : Interpretation R} (hs : s.Lawful D) {t u : Tree} {f : R}

include hs

/-- A result stays as it is, however often it is multiplied out. -/
theorem eq_of_multiplyOut (ht : D.Holds t f) (hfixed : s.simplify t = .ok t) {rounds : Nat}
    (h : s.multiplyOut rounds t = .ok u) : u = t := by
  cases rounds with
  | zero => exact (Except.ok.inj h).symm
  | succ rounds =>
    obtain ⟨before, hbefore, h⟩ := Answer.bind_eq_ok_iff.mp h
    obtain ⟨reread, hreread, h⟩ := Answer.bind_eq_ok_iff.mp h
    obtain ⟨spread, hspread, h⟩ := Answer.bind_eq_ok_iff.mp h
    obtain ⟨next, hnext, h⟩ := Answer.bind_eq_ok_iff.mp h
    obtain ⟨after, hafter, h⟩ := Answer.bind_eq_ok_iff.mp h
    obtain ⟨cs, hcs, -⟩ := Answer.bind_eq_ok_iff.mp hbefore
    obtain ⟨text, htext, hread⟩ := Reader.ofText_of_composed ((hs.built ht hfixed).composed hcs)
    obtain rfl := Except.ok.inj (htext.symm.trans hbefore)
    obtain rfl := Except.ok.inj (hread.symm.trans hreread)
    have hspread := Interpretation.keeps_distributeNode.rebuild ht hspread
    obtain rfl : t = next := Except.ok.inj ((hfixed.symm.trans (hs.unique ht hspread)).trans hnext)
    obtain rfl := Except.ok.inj (hafter.symm.trans hbefore)
    rw [if_pos rfl] at h
    exact (Answer.pure_eq_ok_iff.mp h).symm

/-- The choice of the sign keeps a tree, or answers the normal form of its negative. -/
theorem holds_of_withPositiveLead (hbuilt : t.Built) (ht : D.Holds t f) (h : s.withPositiveLead t = .ok u) :
    u.Built ∧ ∃ negative, s.hasNegativeLead t = .ok negative ∧ D.Holds u (if negative then -f else f) := by
  obtain ⟨negative, hnegative, h⟩ := Answer.bind_eq_ok_iff.mp h
  refine ⟨?_, negative, hnegative, ?_⟩
  all_goals
    cases negative with
    | false =>
      obtain rfl := Answer.pure_eq_ok_iff.mp h
      assumption
    | true =>
      have hnegate : D.Holds (Tree.negate (.paren t)) (-f) := by simpa using ht
      first | exact hs.built hnegate h | exact hs.holds hnegate h

open Canonical in
/-- The stages answer the tree that they begin with; those of an equation answer the normal form of its negative if it leads
with a minus. -/
theorem eq_of_runStages (ht : D.Holds t f) (hfixed : s.simplify t = .ok t) {config : Config} {isEquation : Bool}
    (h : runStages (stages s config isEquation) t = .ok u) :
    if isEquation then ∃ negative, s.hasNegativeLead t = .ok negative ∧ s.simplify (if negative then t.negate else t) = .ok u
    else u = t := by
  obtain ⟨spread, hspread, hrun⟩ := Answer.bind_eq_ok_iff.mp h
  rw [hs.eq_of_multiplyOut ht hfixed hspread] at hrun
  obtain ⟨tidy, htidy, hrun⟩ := Answer.bind_eq_ok_iff.mp hrun
  have hbuilt := (hs.built ht hfixed).tidyCoefficients htidy
  have hlead := hs.lead ht hfixed htidy
  have hfinal {v w : Tree} {g : R} (hv : v.Built) (hg : D.Holds v g)
      (h : runStages [Tree.withOrderedTerms, s.simplify] v = .ok u) (hw : D.Holds w g) : s.simplify w = .ok u := by
    obtain ⟨ordered, hordered, h⟩ := Answer.bind_eq_ok_iff.mp h
    obtain ⟨last, hlast, h⟩ := Answer.bind_eq_ok_iff.mp h
    obtain rfl := Except.ok.inj h
    rw [hs.unique hw (Reading.holds_withOrderedTerms (D := D.reading) hv hg hordered), hlast]
  have htidy := Interpretation.keeps_coefficientNode.rebuild ht htidy
  cases isEquation with
  | false => exact Except.ok.inj ((hfinal hbuilt htidy hrun ht).symm.trans hfixed)
  | true =>
    obtain ⟨signed, hsigned, hrun⟩ := Answer.bind_eq_ok_iff.mp hrun
    obtain ⟨hbuilt, negative, hnegative, hholds⟩ := hs.holds_of_withPositiveLead hbuilt htidy hsigned
    refine ⟨negative, hlead.symm.trans hnegative, hfinal hbuilt hholds hrun ?_⟩
    cases negative with
    | false => exact ht
    | true => simpa using ht

open Canonical in
/-- The canonical form of an expression has the normal form of its tree, and that of an equation the normal form of the
difference of its sides or of the negative, whichever does not lead with a minus; if a later stage fails, the sign stays. -/
theorem tree_ofBase (ht : D.Holds t f) (hfixed : s.simplify t = .ok t) (config : Config) (isEquation : Bool) :
    let form := Form.ofBase s config isEquation t
    if isEquation && !form.degraded then
      ∃ negative, s.hasNegativeLead t = .ok negative ∧ s.simplify (if negative then t.negate else t) = .ok form.tree
    else form.tree = t := by
  intro form
  cases hrun : runStages (stages s config isEquation) t with
  | error failure =>
    have hform : form = ⟨t, isEquation, true⟩ := by rw [show form = Form.ofBase s config isEquation t from rfl, Form.ofBase, hrun]
    simp [hform]
  | ok u =>
    have hform : form = ⟨u, isEquation, false⟩ := by rw [show form = Form.ofBase s config isEquation t from rfl, Form.ofBase, hrun]
    have hstages := hs.eq_of_runStages ht hfixed hrun
    cases isEquation <;> simpa [hform] using hstages

end Simplifier.Lawful

end AlgebraTutor
