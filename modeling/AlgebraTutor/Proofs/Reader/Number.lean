import AlgebraTutor.Proofs.Reader.Binding
import AlgebraTutor.Proofs.Reader.Meaning
import AlgebraTutor.Proofs.Reader.Product
import AlgebraTutor.Proofs.Reader.Spelling

/-!
# Numbers and their multiples

The tokens of a number, alone or with a letter behind it, are the same at every stage, up to the product sign that is written
between the two. The phrase that they are read as is the call on the literal, or the product of it and the letter.
-/

namespace AlgebraTutor.Reader

variable {l : Literal}

/-- The word that a number is a call of. -/
def Literal.callWord : Literal → String
  | .integer _ _ => "integer"
  | .decimal _ _ _ _ => "decimal"

/-- The phrase of a number is a call on its literal. -/
def Literal.phrase (l : Literal) : Phrase :=
  .call l.callWord [.literal l]

theorem spellNumber_false (l : Literal) : spellNumber l false = callOn l.callWord (.literal l) := by
  cases l <;> rfl

theorem isOperand_spellNumber (hform : l.isWellFormed = true) : Phrase.IsOperand (spellNumber l false) l.phrase := by
  have hliteral : Phrase.IsOperand [.literal l] (.literal l) := fun _ hends => .literal hform hends
  intro rest hends
  rw [spellNumber_false]
  exact .call (.lastArg (hliteral.factor.product.sum.closed rest)) hends

theorem isCallable_callWord (l : Literal) : isCallable l.callWord = true := by
  cases l <;> rfl

theorem insertProducts_spellNumber (l : Literal) (ts : List Token) :
    insertProducts false (spellNumber l false ++ ts) =
      spellNumber l false ++ (productSign false (.mark .closeParen) ts ++ insertProducts false ts) := by
  rw [spellNumber_false, insertProducts_callOn (isCallable_callWord l) (by simp)]

/-- Tokens without products or applications to write out are read as the phrase that the grammar derives from them. -/
theorem ofTokens?_of_applied {ts : List Token} {p : Phrase} (hnest : closes 0 ts = true) (hfinish : Token.finish ∉ ts)
    (happlied : (ts ++ [Token.finish]).IsChain Applied) (hgrammar : grammarTokens ts = ts) (hsum : Phrase.IsSum ts p) :
    (applications? ts).bind Phrase.ofTokens? = some p := by
  have hderives := @Phrase.IsSum.whole _ _ hsum [] ⟨⟨by simp, by simp⟩, by simp⟩ (by simp) (by simp)
  rw [List.append_nil] at hderives
  rw [applications?_of_applied hnest hfinish happlied, Option.bind_some]
  exact Phrase.ofTokens?_of_derives (hgrammar.symm ▸ hderives)

/-- The tokens of a number alone are read as they stand. -/
theorem phrase_of_spellNumber (hform : l.isWellFormed = true) :
    (applications? (insertProducts false (spellNumber l false))).bind Phrase.ofTokens? = some l.phrase := by
  have hproducts := insertProducts_spellNumber l []
  rw [List.append_nil] at hproducts
  rw [hproducts, insertProducts, List.append_nil, productSign, List.head?_nil, Option.any_none, Bool.and_false,
    if_neg Bool.false_ne_true, List.append_nil]
  refine ofTokens?_of_applied ?_ ?_ (applied_spellNumber (.singleton _) l false) ?_
    (isOperand_spellNumber hform).factor.product.sum <;> rw [spellNumber_false]
  · rfl
  · simp [callOn]
  · rfl

/-- A letter behind a number is multiplied by it, whether a sign says so or not. -/
theorem phrase_of_multiple (hform : l.isWellFormed = true) {w : String} (hw : isCallable w = false) {sign : List Mark}
    (hsign : sign = [] ∨ sign = [.star]) :
    (applications? (insertProducts false (spellNumber l false ++ (sign.map .mark ++ [.word w])))).bind Phrase.ofTokens? =
      some (.binary .mul l.phrase (.name w)) := by
  have hproducts : insertProducts false (spellNumber l false ++ (sign.map .mark ++ [.word w])) =
      spellNumber l false ++ .mark .star :: [.word w] := by
    rw [insertProducts_spellNumber]
    rcases hsign with rfl | rfl <;> rfl
  have hname : Phrase.IsOperand [.word w] (.name w) := fun _ hends => .name hends
  have hletter : [Token.mark .star, .word w, .finish].IsChain Applied :=
    applied_cons (@applied_cons _ (.singleton _) (.word w) hw) rfl
  rw [hproducts]
  refine ofTokens?_of_applied ?_ ?_ ?_ ?_ ((isOperand_spellNumber hform).factor.product.append rfl hname.factor).sum
  · rw [spellNumber_false]
    rfl
  · simp [spellNumber_false, callOn]
  · rw [List.append_assoc]
    exact applied_spellNumber hletter l false
  · rw [spellNumber_false]
    rfl

theorem callWord_cases (l : Literal) : l.callWord = "integer" ∨ l.callWord = "decimal" := by
  cases l <;> simp [Literal.callWord]

theorem treeOf_phrase {value : Rat} (hvalue : l.value? = some value) (text : String) (vars : List Char) :
    treeOf text vars l.phrase = .ok (.const value) :=
  treeOf_call_eq_ok_iff.mpr (.inl (operandTree?_eq_ok_iff.mpr (.inl ⟨callWord_cases l, l, value, rfl, hvalue, rfl⟩)))

theorem treeOf_phrase_of_none (hvalue : l.value? = none) (text : String) (vars : List Char) :
    treeOf text vars l.phrase = .error .digitLimit := by
  simp only [Literal.phrase, treeOf, operandTree?, if_pos (callWord_cases l), hvalue]

end AlgebraTutor.Reader
