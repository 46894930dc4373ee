import AlgebraTutor.Proofs.Reader.Unknowns
import AlgebraTutor.Proofs.Reader.Written

/-!
# Reading undoes writing

What is read from a text without decimals is composed of the integers, letters and `pi` that the text holds. Every
composed tree is read back from its own text, so writing what was read from such a text, and reading that again, leads
to the same tree.
-/

namespace AlgebraTutor

namespace Reader

/-- Is the lexeme a number with a point or an exponent? -/
def Lexeme.isDecimal : Lexeme → Bool
  | .number (.decimal _ _ _ _) _ => true
  | _ => false

/-- Are the numbers of a text integers, in whatever base? -/
def holdsIntegers (text : String) : Bool :=
  let cs := Text.plain text.toList
  ((lexemes? (Text.spellProducts (Text.variableLetters cs) cs)).getD []).all fun l => !l.isDecimal

theorem isDecimal_of_holdsIntegers {text : String} (h : holdsIntegers text = true) {ls : List Lexeme}
    (hls : LexedAs (Text.plain text.toList) ls) {l : Lexeme} (hl : l ∈ ls) : l.isDecimal = false := by
  have hall : (ls.all fun l => !l.isDecimal) = true := by
    simpa only [holdsIntegers, lexemes?_eq_some_iff.mpr hls, Option.getD_some] using h
  simpa using List.all_eq_true.mp hall l hl

theorem composed_of_integer {base : Nat} {ds : List Char} {value : Rat}
    (hvalue : (Literal.integer base ds).value? = some value) : (Tree.const value).Composed := by
  simp only [Literal.value?] at hvalue
  split at hvalue
  · simp at hvalue
  · rename_i hlength
    obtain rfl := Option.some.inj hvalue
    exact .integer (Text.numeralValue base ds) (by simpa using hlength)

/-- A tree that is read from a text without decimals is composed. -/
theorem composed_of_ofText {text : String} {t : Tree} (hread : Tree.ofText text = .ok t) (hintegers : holdsIntegers text = true) :
    t.Composed := by
  obtain ⟨vars, p, ls, hls, htree, hvars, hliterals, hquoted⟩ := exists_phrase_of_ofText hread
  refine treeOf_induction (fun n hn => ?_) (fun _ => .negate) (fun _ _ _ hop => .binary hop)
    (fun f _ hf hne hts => .build (.inr ⟨⟨f, hf, rfl⟩, hne⟩) hts rfl) (fun l value hl hvalue => ?_) (fun s hs => ?_) htree
  · exact Tree.composed_symbol (hn.imp_left fun ⟨c, hc, h⟩ => ⟨c, hvars c hc, h⟩)
  · obtain ⟨isImaginary, hmem⟩ := hliterals l hl
    cases l with
    | integer base ds => exact composed_of_integer hvalue
    | decimal whole fraction isNegative exponent =>
      exact absurd (isDecimal_of_holdsIntegers hintegers hls hmem) (by simp [Lexeme.isDecimal])
  · obtain ⟨c, hc, rfl⟩ := hquoted s hs
    exact .letter c hc

end Reader

open Reader in
/-- Reading undoes writing: every composed tree is written and read back, and so is what is read from a text whose
numbers are integers. -/
theorem Tree.ofText_text :
    (∀ t : Tree, t.Composed → ∃ s, t.text = .ok s ∧ Tree.ofText s = .ok t) ∧
      ∀ (text : String) (t : Tree), holdsIntegers text = true → Tree.ofText text = .ok t →
        ∃ s, t.text = .ok s ∧ Tree.ofText s = .ok t :=
  ⟨fun _ h => ofText_of_composed h, fun _ _ hintegers hread => ofText_of_composed (composed_of_ofText hread hintegers)⟩

open AlgebraTutor.Tree in
/-- The tree of `(-2)^(-x)` is written and read back, and so is what `-2x**(0x1F - sin x)` is read as. -/
theorem Tree.ofText_text_signed :
    (∃ s, (binary .pow (.const (-2)) (negate (.symbol "x"))).text = .ok s ∧
      Tree.ofText s = .ok (binary .pow (.const (-2)) (negate (.symbol "x")))) ∧
    ∃ t s, Tree.ofText "-2x**(0x1F - sin x)" = .ok t ∧ t.text = .ok s ∧ Tree.ofText s = .ok t := by
  have hbase : (const (-2)).Composed := .integer (-2) (by decide)
  have hexponent : (symbol "x").Composed := .letter 'x' (by decide)
  have hread : Tree.ofText "-2x**(0x1F - sin x)" = .ok (binary .mul (.const (-2))
      (binary .pow (.symbol "x") (binary .sub (.const 31) (call "sin" [.symbol "x"])))) := by decide +kernel
  obtain ⟨s, hs, hback⟩ := Tree.ofText_text.2 "-2x**(0x1F - sin x)" _ (by decide +kernel) hread
  exact ⟨Tree.ofText_text.1 _ (hbase.binary rfl hexponent.negate), _, s, hread, hs, hback⟩

end AlgebraTutor
