import Mathlib
import AlgebraTutor.Proofs.Reader.RoundTrip
import AlgebraTutor.Proofs.Tree.Digits
import AlgebraTutor.Proofs.Tree.Layout

/-!
# Reading a simplified tree back

Simplifying invents no unknown, so its answer is assembled of integers, letters and named constants. What keeps such a tree
from being read back from its own text are the functions that values are made of and that a learner may not write, such as
the cotangent: their names are read as products of letters.
-/

namespace AlgebraTutor.Tree

variable {S F : String → Prop} {t u : Tree} {op : Op} {args : List Tree}

/-! ### Trees assembled of what a reader knows -/

theorem callsOnly_build (hbuild : build op args = .ok t) :
    t.CallsOnly F ↔ (∀ f, op = .call f → F f) ∧ ∀ a ∈ args, a.CallsOnly F := by
  rcases build_eq_ok hbuild with ⟨f, rfl, rfl⟩ | ⟨u, rfl, rfl, rfl⟩ | ⟨l, r, hop, rfl, rfl⟩
  · simp [callsOnly_call]
  · simp [callsOnly_negate]
  · rw [← callsOnly_apply, callsOnly_arithmetic hop, callsOnly_binary hop]
    simp

theorem Assembled.symbols_of_mem_unknowns (h : t.Assembled S F) : ∀ v ∈ t.unknowns, S v := by
  induction h with
  | integer n => simp [unknowns_const]
  | @symbol name hname =>
    intro v hv
    obtain rfl : v = name := by simpa [nodes] using (mem_unknowns.mp hv).1
    exact hname
  | @build op args t _ _ hbuild ih =>
    intro v hv
    rcases build_eq_ok hbuild with ⟨f, -, rfl⟩ | ⟨u, -, rfl, rfl⟩ | ⟨l, r, -, rfl, rfl⟩
    · rw [Tree.call, mem_unknowns_apply] at hv
      obtain ⟨a, ha, hv⟩ : ∃ a ∈ args, v ∈ a.unknowns := by simpa [unknowns_stripParens] using hv
      exact ih a ha v hv
    · exact ih u (by simp) v (mem_unknowns_of_negate hv)
    · exact (mem_unknowns_binary.mp hv).elim (ih l (by simp) v) (ih r (by simp) v)

/-- Simplifying invents no unknown. -/
theorem unknowns_simplify_subset (h : t.simplify = .ok u) : u.unknowns ⊆ t.unknowns := by
  intro v hv
  have hassembled : u.Assembled (fun v => v ∈ t.unknowns ∨ isNamedConstant v = true) Expr.IsDisplayName :=
    assembled_simplify (fun _ => .inr) (fun _ => .inl) h
  exact (hassembled.symbols_of_mem_unknowns v hv).resolve_right (by simp [(mem_unknowns.mp hv).2])

/-- A tree of short integers, letters and named constants is composed if it calls only known functions. -/
theorem Assembled.composed (h : t.Assembled IsReadableName F) (hshort : t.HasShortIntegers)
    (hcalls : t.CallsOnly (· ∈ Text.functionNames)) : t.Composed := by
  induction h with
  | integer n => exact .integer n (hasShortIntegers_const.mp hshort)
  | symbol hname => exact composed_symbol hname
  | build hop _ hbuild ih =>
    rw [hasShortIntegers_build hbuild] at hshort
    rw [callsOnly_build hbuild] at hcalls
    refine .build (hop.imp_right fun ⟨⟨f, _, hf⟩, hne⟩ => ⟨⟨f, hcalls.1 f hf, hf⟩, hne⟩) (fun a ha => ?_) hbuild
    exact ih a ha (hshort a ha) (hcalls.2 a ha)

/-! ### The text of a simplified tree -/

/-- A simplified tree whose integers can be written is read back from its text exactly if it calls only functions that a
learner may write. -/
theorem ofText_text_simplify_iff {text : String} (hread : ofText text = .ok t) (hsimplify : t.simplify = .ok u)
    (hshort : u.HasShortIntegers) :
    (∃ s, u.text = .ok s ∧ ofText s = .ok u) ↔ u.CallsOnly (· ∈ Text.functionNames) := by
  constructor
  · rintro ⟨s, -, hback⟩
    exact Reader.callsOnly_ofText hback
  · intro hcalls
    have hassembled : u.Assembled IsReadableName Expr.IsDisplayName :=
      assembled_simplify (fun _ => .inr) (fun _ hv => .inl (Reader.isAlpha_of_mem_unknowns_ofText hread hv)) hsimplify
    exact Reader.ofText_of_composed (hassembled.composed hshort hcalls)

/-- What `tan(-x)` simplifies to is read back. -/
theorem ofText_text_simplify_tangent :
    ∃ t u, ofText "tan(-x)" = .ok t ∧ t.simplify = .ok u ∧ u.HasShortIntegers ∧ ∃ s, u.text = .ok s ∧ ofText s = .ok u := by
  let t := Tree.call "tan" [negate (.symbol "x")]
  let u := negate (Tree.call "tan" [.symbol "x"])
  have hread : ofText "tan(-x)" = .ok t := by decide +kernel
  have hsimplify : t.simplify = .ok u := by decide +kernel
  have hshort : u.HasShortIntegers :=
    hasShortIntegers_negate.mpr (hasShortIntegers_apply.mpr (by simp [stripParens]))
  have hcalls : u.CallsOnly (· ∈ Text.functionNames) :=
    callsOnly_negate.mpr (callsOnly_call.mpr ⟨by decide, by simp [callsOnly_symbol]⟩)
  exact ⟨t, u, hread, hsimplify, hshort, (ofText_text_simplify_iff hread hsimplify hshort).mpr hcalls⟩

/-- What `tan(x + pi/2)` simplifies to is written as `-cot(x)`, which is read as a product of letters. -/
theorem exists_simplify_not_reread :
    ∃ t u v, ofText "tan(x + pi/2)" = .ok t ∧ t.simplify = .ok u ∧ u.HasShortIntegers ∧ u.text = .ok "-cot(x)" ∧
      ofText "-cot(x)" = .ok v ∧ v ≠ u := by
  let x := symbol "x"
  let t := call "tan" [binary .add x (binary .div (.symbol "pi") (.const 2))]
  let u := negate (call "cot" [x])
  let v := binary .mul (binary .mul (binary .mul (negate (.symbol "c")) (.symbol "o")) (.symbol "t")) x
  -- The kernel does not evaluate the sorting of two terms, so the value of the tree is worked out by rewriting.
  have hvalue : Expr.ofTree t = .ok (.mul [.num (-1), .fn .cot (.symbol "x")]) := by cbv
  have htree : (Expr.normalForm Expr.engine (.mul [.num (-1), .fn .cot (.symbol "x")])).toTree = .ok u := by decide +kernel
  have hsimplify : t.simplify = .ok u := by
    have hnone : t.polynomial? = none := by decide +kernel
    rw [simplify, hnone, hvalue]
    exact htree
  have hshort : u.HasShortIntegers :=
    hasShortIntegers_negate.mpr (hasShortIntegers_apply.mpr (by simp [x, stripParens]))
  exact ⟨t, u, v, by decide +kernel, hsimplify, hshort, by decide +kernel, by decide +kernel, by decide +kernel⟩

end AlgebraTutor.Tree
