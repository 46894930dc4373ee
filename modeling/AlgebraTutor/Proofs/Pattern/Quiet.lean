import Mathlib.Tactic.SplitIfs
import AlgebraTutor.Pattern.Basic
import AlgebraTutor.Proofs.Answer
import AlgebraTutor.Proofs.Tree.Unknowns

/-!
# Nodes at which nothing is found

All detectors but that of like terms look at one node at a time, and so does the search for work left over. Nothing is found in a
tree exactly if nothing is found at any of its nodes.
-/

namespace AlgebraTutor.Tree

/-- No detector finds anything at the node. -/
structure IsQuiet (t : Tree) : Prop where
  arithmetic : t.constantArithmeticAt = .ok []
  product : t.distributiveAt = .ok []
  coefficient : t.coefficientNormalizationAt = .ok []
  finished : t.isUnfinishedArithmetic = .ok false
  unit : t.hasUnitFactor = false

/-- No detector finds anything at any node. -/
def AllQuiet (t : Tree) : Prop :=
  ∀ n ∈ t.nodes, n.IsQuiet

variable {t u : Tree}

/-! ### From nodes to trees -/

theorem collectAt_eq_nil_iff {detect : Tree → Answer (List Pattern)} {ts : List Tree} :
    collectAt detect ts = .ok [] ↔ ∀ t ∈ ts, detect t = .ok [] := by
  induction ts with
  | nil => simp [collectAt]
  | cons t ts ih =>
    rw [collectAt, List.forall_mem_cons, ← ih]
    simp only [Answer.bind_eq_ok_iff, Answer.pure_eq_ok_iff, List.append_eq_nil_iff]
    constructor
    · rintro ⟨found, hfound, rest, hrest, rfl, rfl⟩
      exact ⟨hfound, hrest⟩
    · rintro ⟨hfound, hrest⟩
      exact ⟨[], hfound, [], hrest, rfl, rfl⟩

theorem someUnfinished_eq_false_iff {ts : List Tree} :
    someUnfinished ts = .ok false ↔ ∀ t ∈ ts, t.isUnfinishedArithmetic = .ok false ∧ t.hasUnitFactor = false := by
  induction ts with
  | nil => simp [someUnfinished]
  | cons t ts ih =>
    rw [someUnfinished, List.forall_mem_cons, ← ih, Answer.bind_eq_ok_iff]
    constructor
    · rintro ⟨unfinished, hunfinished, h⟩
      split_ifs at h with hyes hunit
      · simp at h
      · simp at h
      · exact ⟨⟨by simpa [hyes] using hunfinished, by simpa using hunit⟩, h⟩
    · rintro ⟨⟨hunfinished, hunit⟩, h⟩
      exact ⟨false, hunfinished, by simpa [hunit] using h⟩

theorem patterns_eq_nil_iff :
    t.patterns = .ok [] ↔ t.openArithmetic = .ok [] ∧ t.likeTerms = .ok [] ∧ t.openProducts = .ok [] ∧ t.idleNumbers = .ok [] := by
  rw [patterns]
  simp only [Answer.bind_eq_ok_iff, Answer.pure_eq_ok_iff, List.append_eq_nil_iff]
  constructor
  · rintro ⟨arithmetic, harithmetic, likeTerms, hlikeTerms, products, hproducts, coefficients, hcoefficients, ⟨⟨rfl, rfl⟩, rfl⟩, rfl⟩
    exact ⟨harithmetic, hlikeTerms, hproducts, hcoefficients⟩
  · rintro ⟨harithmetic, hlikeTerms, hproducts, hcoefficients⟩
    exact ⟨[], harithmetic, [], hlikeTerms, [], hproducts, [], hcoefficients, ⟨⟨rfl, rfl⟩, rfl⟩, rfl⟩

/-- Nothing is left to do in a tree exactly if no node has any work left and there are no like terms. -/
theorem patterns_and_hasOpenWork_iff :
    (t.patterns = .ok [] ∧ t.hasOpenWork = .ok false) ↔ t.AllQuiet ∧ t.likeTerms = .ok [] := by
  rw [patterns_eq_nil_iff, openArithmetic, openProducts, idleNumbers, hasOpenWork, collectAt_eq_nil_iff, collectAt_eq_nil_iff,
    collectAt_eq_nil_iff, someUnfinished_eq_false_iff]
  constructor
  · rintro ⟨⟨harithmetic, hlikeTerms, hproducts, hcoefficients⟩, hwork⟩
    exact ⟨fun n hn => ⟨harithmetic n hn, hproducts n hn, hcoefficients n hn, (hwork n hn).1, (hwork n hn).2⟩, hlikeTerms⟩
  · rintro ⟨hquiet, hlikeTerms⟩
    exact ⟨⟨fun n hn => (hquiet n hn).arithmetic, hlikeTerms, fun n hn => (hquiet n hn).product,
      fun n hn => (hquiet n hn).coefficient⟩, fun n hn => ⟨(hquiet n hn).finished, (hquiet n hn).unit⟩⟩

/-! ### Nodes -/

/-- A detector writes a node, rewrites it and writes it again, and it reports on the two texts. -/
theorem exists_of_rewriting {rewritten : Answer Tree} {report : String → String → Answer (List Pattern)} {found : List Pattern}
    (h : (t.text >>= fun before => rewritten >>= fun u => u.text >>= report before) = .ok found) :
    ∃ before u after, t.text = .ok before ∧ rewritten = .ok u ∧ u.text = .ok after ∧ report before after = .ok found := by
  obtain ⟨before, hbefore, h⟩ := Answer.bind_eq_ok_iff.mp h
  obtain ⟨u, hu, h⟩ := Answer.bind_eq_ok_iff.mp h
  obtain ⟨after, hafter, h⟩ := Answer.bind_eq_ok_iff.mp h
  exact ⟨before, u, after, hbefore, hu, hafter, h⟩

/-- Is a node a product with a sum as a factor? -/
def isProductOverSum : Tree → Bool
  | .apply .mul [left, right] => left.isSum || right.isSum
  | _ => false

theorem distributiveAt_eq_nil_iff : t.distributiveAt = .ok [] ↔ t.isProductOverSum = false := by
  unfold distributiveAt isProductOverSum
  split
  · split_ifs with hsum <;> simp [Answer.bind_eq_ok_iff, hsum]
  · simp

theorem hasNumber_eq_true_iff {p : Rat → Bool} {args : List Tree} :
    hasNumber p args = true ↔ ∃ a ∈ args, ∃ v, a.stripParens = .const v ∧ p v = true := by
  rw [hasNumber, List.any_eq_true]
  refine exists_congr fun a => and_congr_right fun _ => ?_
  split
  · rename_i v hv
    simp [hv]
  · rename_i hother
    exact ⟨nofun, fun ⟨v, hv, _⟩ => absurd hv (hother v)⟩

theorem hasIdleNumber_of_hasUnitFactor (h : t.hasUnitFactor = true) : t.hasIdleNumber = true := by
  unfold hasUnitFactor at h
  split at h
  · obtain ⟨a, ha, v, hv, hunit⟩ := hasNumber_eq_true_iff.mp h
    refine hasNumber_eq_true_iff.mpr ⟨a, ha, v, hv, ?_⟩
    rw [Bool.or_assoc, hunit, Bool.or_true]
  · simp at h

theorem coefficientNormalizationAt_eq_nil_iff :
    t.coefficientNormalizationAt = .ok [] ↔ t.isNumberOperation = true ∨ t.hasIdleNumber = false := by
  unfold coefficientNormalizationAt
  split_ifs with h
  · simpa using h
  · simpa [Answer.bind_eq_ok_iff] using h

/-- A node that is no operation on numbers is quiet if it is no product over a sum and has no idle number. -/
theorem isQuiet_iff (h : t.isNumberOperation = false) :
    t.IsQuiet ↔ t.isProductOverSum = false ∧ t.hasIdleNumber = false := by
  have harithmetic : t.constantArithmeticAt = .ok [] := by simp [constantArithmeticAt, h]
  have hfinished : t.isUnfinishedArithmetic = .ok false := by simp [isUnfinishedArithmetic, h]
  constructor
  · intro hquiet
    refine ⟨distributiveAt_eq_nil_iff.mp hquiet.product, ?_⟩
    simpa [h] using coefficientNormalizationAt_eq_nil_iff.mp hquiet.coefficient
  · rintro ⟨hproduct, hidle⟩
    refine ⟨harithmetic, distributiveAt_eq_nil_iff.mpr hproduct, coefficientNormalizationAt_eq_nil_iff.mpr (.inr hidle), hfinished, ?_⟩
    exact Bool.eq_false_iff.mpr fun hunit => Bool.eq_false_iff.mp hidle (hasIdleNumber_of_hasUnitFactor hunit)

/-- Arithmetic on numbers is quiet if it is its own normal form, unless it is a product with an idle factor. -/
theorem isQuiet_of_simplify (hsimplify : t.simplify = .ok t) {s : String} (hs : t.text = .ok s) (h : t.isNumberOperation = true)
    (hunit : t.hasUnitFactor = false) (hproduct : t.isProductOverSum = false) : t.IsQuiet where
  arithmetic := by simp [constantArithmeticAt, h, hs, hsimplify]
  product := distributiveAt_eq_nil_iff.mpr hproduct
  coefficient := coefficientNormalizationAt_eq_nil_iff.mpr (.inl h)
  finished := by simp [isUnfinishedArithmetic, h, hs, hsimplify]
  unit := hunit

theorem allQuiet_const (value : Rat) : (const value).AllQuiet := by
  have hquiet : (const value).IsQuiet := (isQuiet_iff rfl).mpr ⟨rfl, rfl⟩
  simpa [AllQuiet, nodes] using hquiet

theorem allQuiet_symbol (name : String) : (symbol name).AllQuiet := by
  have hquiet : (symbol name).IsQuiet := (isQuiet_iff rfl).mpr ⟨rfl, rfl⟩
  simpa [AllQuiet, nodes] using hquiet

theorem allQuiet_apply_iff {op : Op} {args : List Tree} :
    (apply op args).AllQuiet ↔ (apply op args).IsQuiet ∧ ∀ a ∈ args, a.AllQuiet := by
  simp only [AllQuiet, nodes, List.forall_mem_cons, mem_nodesAll]
  exact and_congr_right fun _ => ⟨fun h a ha n hn => h n ⟨a, ha, hn⟩, fun h n ⟨a, ha, hn⟩ => h a ha n hn⟩

end AlgebraTutor.Tree
