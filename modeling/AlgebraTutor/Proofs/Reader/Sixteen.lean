import AlgebraTutor.Proofs.Input
import AlgebraTutor.Proofs.Reader.Failure
import AlgebraTutor.Proofs.Reader.Number
import AlgebraTutor.Proofs.Reader.PieceLexemes

/-!
# Numbers in base sixteen

A number in base sixteen that is written with decimal digits only passes every stage of reading as it stands, whatever its
length. It is read as its value, if that is within the limit, and there is no tree for it otherwise.
-/

namespace AlgebraTutor

namespace Reader

/-! ### A number in base sixteen -/

/-- A number in base sixteen. -/
def sixteenChars (ds : List Char) : List Char :=
  '0' :: 'x' :: ds

section Sixteen

variable {ds : List Char} (hds : ∀ d ∈ ds, d.isDigit = true)

include hds

theorem mem_sixteenChars {c : Char} (hc : c ∈ sixteenChars ds) : c = 'x' ∨ c.isDigit = true := by
  rcases List.mem_cons.mp hc with rfl | hc
  · exact .inr rfl
  · exact (List.mem_cons.mp hc).imp_right (hds c)

theorem isAlphanum_of_mem_sixteenChars {c : Char} (hc : c ∈ sixteenChars ds) : c.isAlphanum = true := by
  rcases mem_sixteenChars hds hc with rfl | hdigit
  · rfl
  · simp [Char.isAlphanum, hdigit]

theorem trimChars_sixteenChars : Text.trimChars (sixteenChars ds) = sixteenChars ds := by
  have hblank {c : Char} (hc : c ∈ sixteenChars ds) : Text.isBlank c = false :=
    Piece.not_isBlank_of_isAlphanum (isAlphanum_of_mem_sixteenChars hds hc)
  exact Text.trimChars_eq_self (fun c hc => hblank (List.mem_of_head? hc)) fun c hc => hblank (List.mem_of_getLast? hc)

theorem isAllowed_of_mem_sixteenChars {c : Char} (hc : c ∈ sixteenChars ds) : isAllowed c = true := by
  rw [isAllowed, isAlphanum_of_mem_sixteenChars hds hc, Bool.true_or]

theorem plain_sixteenChars : Text.plain (sixteenChars ds) = sixteenChars ds := by
  have hcapital : 'P' ∉ (sixteenChars ds).dropLast := fun hc => by
    rcases mem_sixteenChars hds (List.dropLast_subset _ hc) with h | h <;> exact absurd h (by decide)
  have hletter : ∀ c ∈ (sixteenChars ds).tail, Text.isLiteralLetter c = false := fun c hc => by
    rcases mem_sixteenChars hds (List.mem_of_mem_tail hc) with rfl | hdigit
    · decide
    · exact Piece.not_literalLetter_of_isDigit hdigit
  exact Piece.plain_eq_self (fun c hc => isAllowed_of_mem_sixteenChars hds hc) (trimChars_sixteenChars hds)
    (Text.lowerPi_eq_self hcapital false) (Text.setOffLetters_eq_self hletter)

theorem isAlpha_of_mem_digits {d : Char} (hd : d ∈ ds) : d.isAlpha = false :=
  isAlpha_of_isDigit (hds d hd)

theorem spellProducts_sixteenChars (vars : List Char) : Text.spellProducts vars (sixteenChars ds) = sixteenChars ds := by
  -- the letter of the base is a run of letters on its own, and a run of one letter stays
  have hrest : Text.BeginsOutside ds := fun d hd => isAlpha_of_mem_digits hds (List.mem_of_head? hd)
  have hrun := @Text.spellProducts_run vars ['x'] ds (by simp) (by decide) hrest
  have hdigits := @Text.spellProducts_outside vars ds (fun d hd => isAlpha_of_mem_digits hds hd) []
  have hx : Text.spelledRun vars ['x'] = ['x'] := by simp [Text.spelledRun, Text.spellRun]
  rw [List.append_nil, show Text.spellProducts vars [] = [] from rfl, List.append_nil] at hdigits
  rw [hx, hdigits] at hrun
  rw [sixteenChars, Text.spellProducts_other (by decide)]
  exact congrArg _ hrun

theorem scan?_sixteenChars (hne : ds ≠ []) : Literal.scan? (sixteenChars ds) = some (.integer 16 ds, false, []) := by
  have hspan : Literal.spanDigits Text.isHexDigit (ds ++ []) = (ds, []) :=
    Literal.spanDigits_of_all (fun d hd => by simp [Text.isHexDigit, hds d hd]) (by simp)
  rw [List.append_nil] at hspan
  have hbase : Literal.base? 'x' = some (16, Text.isHexDigit) := rfl
  have hdigits : Literal.spanDigits Char.isDigit (sixteenChars ds) = (['0'], 'x' :: ds) := rfl
  have hall : (Literal.allDigits? (sixteenChars ds)).bind Literal.imaginaryMark? = none := rfl
  have hdecimal : Literal.decimal? (sixteenChars ds) = none := rfl
  have hbased : Literal.based? (sixteenChars ds) = some (.integer 16 ds, []) := by
    simp only [sixteenChars, Literal.based?, hbase, hspan]
    simp [hne]
  rw [Literal.scan?, hall, hdecimal, hbased]

theorem lexed_sixteenChars (hne : ds ≠ []) : Lexed (sixteenChars ds) [.number (.integer 16 ds) false] := by
  have hlexeme : lexeme? (sixteenChars ds) = some (.number (.integer 16 ds) false, []) := by
    unfold lexeme?
    rw [scan?_sixteenChars hds hne]
  exact .lexeme hlexeme .nil

/-- The text is a call of the word `integer` on the literal. -/
theorem phrase?_sixteenChars (hne : ds ≠ []) (vars : List Char) :
    phrase? vars (sixteenChars ds) = some (.call "integer" [.literal (.integer 16 ds)]) := by
  have hlexemes := lexemes?_eq_some_iff.mpr (lexed_sixteenChars hds hne)
  have hbalanced : isBalanced [.number (.integer 16 ds) false] = true := rfl
  have hspelled : spell vars false [.number (.integer 16 ds) false] = spellNumber (.integer 16 ds) false :=
    List.append_nil _
  rw [phrase?, tokens?, spellProducts_sixteenChars hds, hlexemes, Option.bind_some, if_pos hbalanced, Option.bind_some,
    hspelled, phrase_of_spellNumber rfl]
  rfl

/-- A number in base sixteen is read as its value, if that is within the limit. -/
theorem ofText_sixteenChars (hne : ds ≠ []) :
    Tree.ofText (String.ofList (sixteenChars ds)) =
      match (Literal.integer 16 ds).value? with
      | some value => .ok (.const value)
      | none => .error .digitLimit := by
  have hstrange : strangeCharacters (sixteenChars ds) = [] :=
    strangeCharacters_eq_nil_iff.mpr fun c hc => isAllowed_of_mem_sixteenChars hds hc
  simp only [Tree.ofText, String.toList_ofList, plain_sixteenChars hds, hstrange, phrase?_sixteenChars hds hne, treeOf,
    operandTree?]
  cases (Literal.integer 16 ds).value? <;> rfl

end Sixteen

end Reader

/-! ### Inputs of letters and digits -/

/-- A trimmed text of letters and digits is taken as an expression. -/
theorem Input.ofText_of_isAlphanum {cs : List Char} (hne : cs ≠ []) (htrim : Text.trimChars cs = cs)
    (hcs : ∀ c ∈ cs, c.isAlphanum = true) : ofText (String.ofList cs) = .ok ⟨String.ofList cs, none⟩ := by
  have hother {c : Char} (hc : c.isAlphanum = false) : c ∉ cs := fun hmem => by
    simp [hcs c hmem] at hc
  have hdoubled : hasDoubledOperator cs = false := by
    have hblank {c : Char} (hc : c.isAlphanum = false) : c ∉ Text.withoutBlanks cs := fun hmem =>
      hother hc (List.mem_of_mem_filter hmem)
    simp [hasDoubledOperator, doubledOperators, Text.containsChars_eq_false _ (hblank (c := '+') (by decide)),
      Text.containsChars_eq_false _ (hblank (c := '-') (by decide)),
      Text.containsChars_eq_false _ (hblank (c := '/') (by decide)),
      Text.containsChars_eq_false _ (hblank (c := '*') (by decide))]
  exact ofText_expression hne htrim hdoubled (hother (by decide))

open Reader (Literal sixteenChars)

/-- The check takes a number in base sixteen for an expression, and fails on it only because of its value. -/
theorem Input.check_sixteenChars {ds : List Char} (hds : ∀ d ∈ ds, d.isDigit = true) (hne : ds ≠ [])
    (hvalue : (Literal.integer 16 ds).value? = none) :
    check (String.ofList (sixteenChars ds)) = .error .digitLimit := by
  have hinput : ofText (String.ofList (sixteenChars ds)) = .ok ⟨String.ofList (sixteenChars ds), none⟩ :=
    ofText_of_isAlphanum (List.cons_ne_nil _ _) (Reader.trimChars_sixteenChars hds)
      fun c hc => Reader.isAlphanum_of_mem_sixteenChars hds hc
  have hread := Reader.ofText_sixteenChars hds hne
  rw [hvalue] at hread
  rw [check, hinput, Answer.ok_bind, sides, readAll, hread]
  rfl

/-! ### The shortest number beyond the limit -/

theorem Reader.Literal.value?_nines {n : Nat} (hn : 3572 ≤ n) :
    (Literal.integer 16 (List.replicate n '9')).value? = none := by
  obtain ⟨k, rfl⟩ := Nat.exists_eq_add_of_le' hn
  have hfirst : 10 ^ Tree.digitLimit ≤ 9 * 16 ^ 3571 := by decide +kernel
  have hnines : 9 * 16 ^ (k + 3571) ≤ Text.numeralValue 16 ('9' :: List.replicate (k + 3571) '9') := by
    have hle := @Text.le_numeralValue 16 '9' (List.replicate (k + 3571) '9')
    rwa [List.length_replicate] at hle
  rw [value?_integer_eq_none_iff]
  calc 10 ^ Tree.digitLimit
      ≤ 9 * 16 ^ 3571 := hfirst
    _ ≤ 16 ^ k * (9 * 16 ^ 3571) := Nat.le_mul_of_pos_left _ (Nat.pow_pos (by decide))
    _ = 9 * 16 ^ (k + 3571) := by rw [Nat.pow_add, Nat.mul_left_comm]
    _ ≤ _ := hnines

theorem Input.check_nines {n : Nat} (hn : 3572 ≤ n) :
    check (String.ofList (sixteenChars (List.replicate n '9'))) = .error .digitLimit := by
  have hne : List.replicate n '9' ≠ [] := List.ne_nil_of_length_pos (by rw [List.length_replicate]; omega)
  refine check_sixteenChars (fun d hd => ?_) hne (Literal.value?_nines hn)
  rw [List.eq_of_mem_replicate hd]
  rfl

theorem Reader.length_sixteenChars (ds : List Char) : (String.ofList (sixteenChars ds)).length = ds.length + 2 := by
  rw [String.length_ofList, sixteenChars, List.length_cons, List.length_cons]

end AlgebraTutor
