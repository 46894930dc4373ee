import AlgebraTutor.Proofs.Decimal.Nearest
import AlgebraTutor.Proofs.Reader.Number
import AlgebraTutor.Proofs.Reader.PieceTokens
import AlgebraTutor.Proofs.Text.Decimal

/-!
# Reading decimals

A decimal is read as the fraction that it is exactly, and with a letter behind it, or a product sign and a letter, as the
product of the two.
-/

namespace AlgebraTutor

open Text (DecimalNumeral)

namespace Text.DecimalNumeral

variable (n : DecimalNumeral)

theorem mem_chars {c : Char} (hc : c ∈ n.chars) : c = '.' ∨ c.isDigit = true := by
  rcases List.mem_append.mp hc with hc | hc
  · exact .inr (n.isDigit_whole c hc)
  · exact (List.mem_cons.mp hc).imp_right (n.isDigit_fraction c)

theorem isAlpha_of_mem_chars {c : Char} (hc : c ∈ n.chars) : c.isAlpha = false := by
  rcases n.mem_chars hc with rfl | hdigit
  · decide
  · exact Reader.isAlpha_of_isDigit hdigit

/-- The literal of a decimal. -/
def literal : Reader.Literal :=
  .decimal n.whole n.fraction false []

theorem literal_value? (hshort : n.IsShort) : n.literal.value? = some n.value := by
  have hlimit : (decide (Tree.digitLimit < n.whole.length) || decide (Tree.digitLimit < n.fraction.length) ||
      decide (Tree.digitLimit < ([] : List Char).length)) = false := by
    simp [Nat.not_lt.mpr hshort.1, Nat.not_lt.mpr hshort.2]
  have hexponent : Text.numeralValue 10 [] = 0 := rfl
  simp only [literal, Reader.Literal.value?, hlimit, hexponent, value]
  rw [if_neg Bool.false_ne_true, if_neg Bool.false_ne_true, Rat.mkRat_eq_div, Nat.pow_eq, Nat.pow_eq]
  push_cast
  rw [mul_one]

theorem literal_value?_eq_none (hlong : ¬n.IsShort) : n.literal.value? = none := by
  have hlimit : Tree.digitLimit < n.whole.length ∨ Tree.digitLimit < n.fraction.length := by
    rw [IsShort] at hlong
    omega
  simp only [literal, Reader.Literal.value?]
  exact if_pos (by simpa using hlimit)

theorem value_eq_of_literal {q : ℚ} (h : n.literal.value? = some q) : q = n.value := by
  by_cases hshort : n.IsShort
  · exact Option.some.inj (h.symm.trans (n.literal_value? hshort))
  · simp [n.literal_value?_eq_none hshort] at h

end Text.DecimalNumeral

namespace Reader

variable {n : DecimalNumeral}

theorem chars_ne_nil : n.chars ≠ [] := by
  simp [DecimalNumeral.chars]

theorem spanDigits_decimal (w : List Char) : Literal.spanDigits Char.isDigit (n.chars ++ w) = (n.whole, '.' :: (n.fraction ++ w)) := by
  have hpoint : ∀ c ∈ ('.' :: (n.fraction ++ w)).head?, c.isDigit = false := by simp
  rw [DecimalNumeral.chars, List.append_assoc]
  exact Literal.spanDigits_of_all n.isDigit_whole hpoint

theorem decimal?_decimal {w : List Char} (hdigit : ∀ c ∈ w.head?, c.isDigit = false) (hexponent : Literal.exponent? w = none) :
    Literal.decimal? (n.chars ++ w) = some (n.literal, w) := by
  have hfraction : Literal.spanDigits Char.isDigit (n.fraction ++ w) = (n.fraction, w) :=
    Literal.spanDigits_of_all n.isDigit_fraction hdigit
  simp [Literal.decimal?, spanDigits_decimal, hfraction, n.whole_ne_nil, Literal.decimalWith, hexponent, DecimalNumeral.literal]

/-- The digits before the point are no imaginary integer. -/
theorem allDigits?_decimal (w : List Char) : (Literal.allDigits? (n.chars ++ w)).bind Literal.imaginaryMark? = none := by
  simp [Literal.allDigits?, spanDigits_decimal, n.whole_ne_nil, Literal.imaginaryMark?]

theorem scan?_decimal {w : List Char} (hw : Literal.EndsDigits w) :
    Literal.scan? (n.chars ++ w) = some (n.literal, false, w) := by
  have hdecimal : Literal.decimal? (n.chars ++ w) = some (n.literal, w) :=
    decimal?_decimal (fun c hc => (hw c hc).1) hw.exponent?_eq_none
  simp only [Literal.scan?, allDigits?_decimal, hdecimal, hw.imaginaryMark?_eq_none]

theorem scan?_imaginary (w : List Char) : Literal.scan? (n.chars ++ 'J' :: w) = some (n.literal, true, w) := by
  have hdecimal : Literal.decimal? (n.chars ++ 'J' :: w) = some (n.literal, 'J' :: w) := decimal?_decimal (by simp) rfl
  have hmark : Literal.imaginaryMark? (n.literal, 'J' :: w) = some (n.literal, w) := rfl
  simp only [Literal.scan?, allDigits?_decimal, hdecimal, hmark]

theorem lexed_decimal {w : List Char} {ls : List Lexeme} (hends : Literal.EndsDigits w) (hw : Lexed w ls) :
    Lexed (n.chars ++ w) (.number n.literal false :: ls) := by
  refine .lexeme ?_ hw
  unfold lexeme?
  rw [scan?_decimal hends]

/-! ### What stands behind a number -/

/-- What may stand between a number and a letter that it is multiplied by. -/
def IsProductSign (v : Char) (sep : List Char) : Prop :=
  sep = [] ∧ Text.isLiteralLetter v = false ∨ sep = ['*'] ∨ sep = [' ', '*', ' ']

/-- What may stand behind a number: nothing, or a letter that it is multiplied by. -/
inductive IsTail : List Char → Prop
  | empty : IsTail []
  | letter {v : Char} {sep : List Char} (hv : v.isAlpha = true) (hsep : IsProductSign v sep) : IsTail (sep ++ [v])

theorem IsProductSign.mem {v : Char} {sep : List Char} (hsep : IsProductSign v sep) {c : Char} (hc : c ∈ sep) :
    c = '*' ∨ c = ' ' := by
  rcases hsep with ⟨rfl, -⟩ | rfl | rfl
  · simp at hc
  · exact .inl (List.mem_singleton.mp hc)
  · simp only [List.mem_cons, List.not_mem_nil, or_false] at hc
    tauto

theorem not_literalLetter_of_not_isAlpha {c : Char} (hc : c.isAlpha = false) : Text.isLiteralLetter c = false := by
  cases hletter : Text.isLiteralLetter c with
  | false => rfl
  | true =>
    simp only [Text.isLiteralLetter, Bool.or_eq_true, beq_iff_eq] at hletter
    rcases hletter with ((rfl | rfl) | rfl) | rfl <;> simp at hc

section Tail

variable {tail : List Char} (htail : IsTail tail)

include htail

theorem IsTail.isAllowed {c : Char} (hc : c ∈ tail) : isAllowed c = true := by
  cases htail with
  | empty => simp at hc
  | letter hv hsep =>
    rcases List.mem_append.mp hc with hc | hc
    · rcases hsep.mem hc with rfl | rfl <;> decide
    · obtain rfl := List.mem_singleton.mp hc
      simp [Reader.isAllowed, Char.isAlphanum, hv]

theorem IsTail.endsDigits : Literal.EndsDigits tail := by
  cases htail with
  | empty => simp [Literal.EndsDigits]
  | @letter v sep hv hsep =>
    rcases hsep with ⟨rfl, hletter⟩ | rfl | rfl
    · intro c hc
      obtain rfl : v = c := by simpa using hc
      refine ⟨isDigit_of_isAlpha hv, ?_, hletter⟩
      rintro rfl
      simp at hv
    · simp [Literal.EndsDigits, Text.isLiteralLetter]
    · simp [Literal.EndsDigits, Text.isLiteralLetter]

theorem IsTail.lowerPi {cs : List Char} (hcs : 'P' ∉ cs) : Text.lowerPi false (cs ++ tail) = cs ++ tail := by
  refine Text.lowerPi_eq_self ?_ false
  cases htail with
  | empty =>
    rw [List.append_nil]
    exact fun hc => hcs (List.dropLast_subset _ hc)
  | @letter v sep hv hsep =>
    rw [← List.append_assoc, List.dropLast_concat, List.mem_append, not_or]
    exact ⟨hcs, fun hc => by rcases hsep.mem hc with h | h <;> exact absurd h (by decide)⟩

theorem IsTail.trimChars {cs : List Char} (hcs : ∀ c ∈ cs, Text.isBlank c = false) (hne : cs ≠ []) :
    Text.trimChars (cs ++ tail) = cs ++ tail := by
  refine Text.trimChars_eq_self (fun c hc => ?_) fun c hc => ?_
  · rw [List.head?_append_of_ne_nil _ hne] at hc
    exact hcs c (List.mem_of_head? hc)
  · cases htail with
    | empty =>
      rw [List.append_nil] at hc
      exact hcs c (List.mem_of_getLast? hc)
    | @letter v sep hv hsep =>
      obtain rfl : v = c := by simpa using hc
      exact Piece.not_isBlank_of_isAlphanum (by simp [Char.isAlphanum, hv])

theorem IsTail.based? : Literal.based? ('0' :: tail) = none := by
  cases htail with
  | empty => rfl
  | @letter v sep hv hsep =>
    rcases hsep with ⟨rfl, -⟩ | rfl | rfl
    · rw [List.nil_append, Literal.based?]
      split <;> simp [Literal.spanDigits]
    · rfl
    · rfl

variable {front : List Char} (hfront : ∀ c ∈ front, c.isAlpha = false)

include hfront

theorem IsTail.setOffLetters : Text.setOffLetters (front ++ tail) = front ++ tail := by
  have hfixed : Text.setOffLetters front = front :=
    Text.setOffLetters_eq_self fun c hc => not_literalLetter_of_not_isAlpha (hfront c (List.mem_of_mem_tail hc))
  cases htail with
  | empty => rwa [List.append_nil]
  | @letter v sep hv hsep =>
    rcases hsep with ⟨rfl, hletter⟩ | rfl | rfl
    · refine Text.setOffLetters_eq_self fun c hc => ?_
      rcases List.mem_append.mp (List.mem_of_mem_tail hc) with hc | hc
      · exact not_literalLetter_of_not_isAlpha (hfront c hc)
      · obtain rfl : c = v := by simpa using hc
        exact hletter
    · have hstar := Text.setOffLetters_append (c := '*') (by decide) front [v]
      rwa [hfixed] at hstar
    · have hblank := Text.setOffLetters_append (c := ' ') (by decide) front ['*', ' ', v]
      rwa [hfixed, Text.setOffLetters_separator (by decide), Text.setOffLetters_separator (by decide)] at hblank

theorem IsTail.spellProducts (vars : List Char) : Text.spellProducts vars (front ++ tail) = front ++ tail := by
  rw [Text.spellProducts_outside hfront]
  cases htail with
  | empty => rfl
  | @letter v sep hv hsep =>
    have hsign : ∀ c ∈ sep, c.isAlpha = false := fun c hc => by rcases hsep.mem hc with rfl | rfl <;> decide
    rw [Text.spellProducts_outside hsign, Text.spellProducts_eq_self (by simpa using hv) (.inr rfl)]

end Tail

/-! ### A decimal with a tail -/

theorem isAllowed_of_mem_decimal {c : Char} (hc : c ∈ n.chars) : isAllowed c = true := by
  rcases n.mem_chars hc with rfl | hdigit
  · decide
  · simp [isAllowed, Char.isAlphanum, hdigit]

theorem plain_decimal {tail : List Char} (htail : IsTail tail) : Text.plain (n.chars ++ tail) = n.chars ++ tail := by
  have hfront : ∀ c ∈ n.chars, c.isAlpha = false := fun _ => n.isAlpha_of_mem_chars
  have hallowed : ∀ c ∈ n.chars ++ tail, isAllowed c = true :=
    List.forall_mem_append.mpr ⟨fun _ => isAllowed_of_mem_decimal, fun _ => htail.isAllowed⟩
  have hblank : ∀ c ∈ n.chars, Text.isBlank c = false := fun c hc => by
    rcases n.mem_chars hc with rfl | hdigit
    · decide
    · exact Piece.not_isBlank_of_isAlphanum (by simp [Char.isAlphanum, hdigit])
  exact Piece.plain_eq_self hallowed (htail.trimChars hblank chars_ne_nil)
    (htail.lowerPi fun hc => absurd (hfront _ hc) (by decide)) (htail.setOffLetters hfront)

theorem lexedAs_decimal {tail : List Char} (htail : IsTail tail) {ls : List Lexeme} (hls : Lexed tail ls) :
    LexedAs (n.chars ++ tail) (.number n.literal false :: ls) := by
  rw [LexedAs, htail.spellProducts fun _ => n.isAlpha_of_mem_chars]
  exact lexed_decimal htail.endsDigits hls

theorem ofText_of_decimal {tail : List Char} (htail : IsTail tail) {ls : List Lexeme} (hls : Lexed tail ls)
    (hbalanced : isBalanced ls = true) {p : Phrase} (hphrase : (applications? (insertProducts false (spellNumber n.literal false ++
      spell (Text.variableLetters (n.chars ++ tail)) false ls))).bind Phrase.ofTokens? = some p) :
    Tree.ofText (String.ofList (n.chars ++ tail)) =
      treeOf (String.ofList (n.chars ++ tail)) (Text.variableLetters (n.chars ++ tail)) p := by
  refine ofText_of_lexed ?_ (List.append_ne_nil_of_left_ne_nil chars_ne_nil _) ?_ (lexedAs_decimal htail hls) ?_ hphrase
  · rw [String.toList_ofList, plain_decimal htail]
  · exact List.forall_mem_append.mpr ⟨fun _ => isAllowed_of_mem_decimal, fun _ => htail.isAllowed⟩
  · simpa [isBalanced] using hbalanced

/-! ### A decimal alone -/

theorem ofText_decimal_eq :
    Tree.ofText (String.ofList n.chars) = treeOf (String.ofList n.chars) (Text.variableLetters n.chars) n.literal.phrase := by
  have hread := @ofText_of_decimal n [] .empty [] .nil rfl n.literal.phrase
  rw [List.append_nil, spell, List.append_nil] at hread
  exact hread (phrase_of_spellNumber rfl)

/-- A decimal is read as the fraction that it is exactly. -/
theorem ofText_decimal (hshort : n.IsShort) : Tree.ofText (String.ofList n.chars) = .ok (.const n.value) := by
  rw [ofText_decimal_eq, treeOf_phrase (n.literal_value? hshort)]

/-- A decimal with more digits than a number may have is not read. -/
theorem ofText_decimal_of_not_short (hlong : ¬n.IsShort) : Tree.ofText (String.ofList n.chars) = .error .digitLimit := by
  rw [ofText_decimal_eq, treeOf_phrase_of_none (n.literal_value?_eq_none hlong)]

/-! ### A decimal and a letter -/

theorem lexeme?_star {v : Char} (hv : v.isAlpha = true) (cs : List Char) :
    lexeme? ('*' :: v :: cs) = some (.mark .star, v :: cs) := by
  have hmark : mark? ('*' :: v :: cs) = some (.star, v :: cs) := by
    rw [mark?]
    · rfl
    · intro rest _ heq
      obtain rfl := (List.cons.inj heq).1
      exact absurd hv (by decide)
    · exact fun _ h _ => absurd h (by decide)
    · exact fun _ h _ => absurd h (by decide)
  have hscan : Literal.scan? ('*' :: v :: cs) = none := rfl
  unfold lexeme?
  rw [hscan, hmark]

/-- The lexemes of a letter and what stands before it: a sign is one, and blanks are none. -/
theorem lexed_tail {v : Char} (hv : v.isAlpha = true) {sep : List Char} (hsep : IsProductSign v sep) :
    ∃ sign, (sign = [] ∨ sign = [Mark.star]) ∧ Lexed (sep ++ [v]) (sign.map .mark ++ [.word [v]]) := by
  have hword : Lexed [v] [.word [v]] := lexed_word (by simp) (by simpa using hv)
  rcases hsep with ⟨rfl, -⟩ | rfl | rfl
  · exact ⟨[], .inl rfl, hword⟩
  · exact ⟨_, .inr rfl, .lexeme (lexeme?_star hv []) hword⟩
  · exact ⟨_, .inr rfl, .blank (.inl rfl) (.lexeme rfl (.blank (.inl rfl) hword))⟩

/-- The phrase of a decimal and a letter is their product. -/
theorem exists_vars_of_multiple {v : Char} (hv : v.isAlpha = true) {sep : List Char} (hsep : IsProductSign v sep) :
    ∃ text vars, Tree.ofText (String.ofList (n.chars ++ (sep ++ [v]))) =
        treeOf text vars (.binary .mul n.literal.phrase (.name v.toString)) ∧
      treeOf text vars (.name v.toString) = .ok (.symbol v.toString) := by
  obtain ⟨sign, hsign, hlexed⟩ := lexed_tail hv hsep
  have hname : (∃ c ∈ Text.variableLetters (n.chars ++ (sep ++ [v])), v.toString = c.toString) ∨
      Tree.isNamedConstant v.toString = true := by
    have hfront : ∀ c ∈ n.chars ++ sep, c.isAlpha = false := List.forall_mem_append.mpr
      ⟨fun _ => n.isAlpha_of_mem_chars, fun c hc => by rcases hsep.mem hc with rfl | rfl <;> decide⟩
    refine (Piece.isVariableOf_or_named hv hfront).imp_left fun hvariable => ?_
    rw [List.append_assoc] at hvariable
    exact ⟨v, Text.mem_variableLetters.mpr hvariable, rfl⟩
  have hspelled : spell (Text.variableLetters (n.chars ++ (sep ++ [v]))) false (sign.map .mark ++ [.word [v]]) =
      sign.map .mark ++ [.word v.toString] := by
    have hknown : isKnownWord (Text.variableLetters (n.chars ++ (sep ++ [v]))) [v] = true := by
      simpa using Piece.Known.isKnownWord hname
    rcases hsign with rfl | rfl <;> simp [spell, hknown]
  have hbalanced : isBalanced (sign.map .mark ++ [.word [v]]) = true := by
    rcases hsign with rfl | rfl <;> rfl
  exact ⟨_, _, ofText_of_decimal (.letter hv hsep) hlexed hbalanced
    (hspelled ▸ phrase_of_multiple rfl (isCallable_letter v) hsign), treeOf_name_eq_ok_iff.mpr ⟨rfl, hname⟩⟩

/-- A decimal and a letter are read as their product. -/
theorem ofText_multiple {v : Char} (hv : v.isAlpha = true) {sep : List Char} (hsep : IsProductSign v sep) (hshort : n.IsShort) :
    Tree.ofText (String.ofList (n.chars ++ (sep ++ [v]))) = .ok (.binary .mul (.const n.value) (.symbol v.toString)) := by
  obtain ⟨text, vars, hread, hname⟩ := exists_vars_of_multiple (n := n) hv hsep
  rw [hread]
  exact treeOf_binary_eq_ok_iff.mpr ⟨.mul, rfl, _, treeOf_phrase (n.literal_value? hshort) text vars, _, hname, rfl⟩

theorem ofText_multiple_of_not_short {v : Char} (hv : v.isAlpha = true) {sep : List Char} (hsep : IsProductSign v sep)
    (hlong : ¬n.IsShort) : Tree.ofText (String.ofList (n.chars ++ (sep ++ [v]))) = .error .digitLimit := by
  obtain ⟨text, vars, hread, -⟩ := exists_vars_of_multiple (n := n) hv hsep
  rw [hread, treeOf, treeOf_phrase_of_none (n.literal_value?_eq_none hlong)]
  rfl

end Reader

end AlgebraTutor
