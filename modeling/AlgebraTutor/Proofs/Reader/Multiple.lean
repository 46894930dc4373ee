import AlgebraTutor.Proofs.Reader.Decimal

/-!
# Reading rows of letters behind a number

Letters behind a number are read as the product of the number and them, from left to right. A first letter that would go on with
the number is set off by a product sign, unless a small letter follows it: then the number is imaginary, and nothing is read.
-/

namespace AlgebraTutor

open Text (DecimalNumeral)

namespace Text

/-- Different letters in alphabetical order that stand for their product: none of them is Euler's number or, small, the
imaginary unit, and together they are no reserved name, in capitals or not. -/
structure LetterRow where
  letters : List Char
  ne_nil : letters ≠ []
  isAlpha : ∀ c ∈ letters, c.isAlpha = true
  increasing : letters.Pairwise (· < ·)
  unfused : ∀ c ∈ letters, c ≠ 'e' ∧ c ≠ 'E' ∧ c ≠ 'j'
  unreserved : isReserved (lowerPi false letters) = false

/-- The first letter makes the number before it imaginary: it is one that may follow a digit, and a small letter keeps it from
being set off. -/
def LetterRow.IsImaginary (w : LetterRow) : Prop :=
  ∃ c cs, w.letters = c :: cs ∧ isLiteralLetter c = true ∧ startsWithLower cs = true

/-- The product sign that sets a row of letters off from a digit, if one does. -/
def setOffSign : List Char → List Char
  | [] => []
  | c :: cs => if isLiteralLetter c && !startsWithLower cs then ['*'] else []

/-! ### Letters in a plain text -/

theorem isDecimalDigit_of_isAlpha {c : Char} (hc : c.isAlpha = true) : isDecimalDigit c = false := by
  have hrange : 58 ≤ c.toNat ∧ c.toNat < 0x660 := by
    delta Char.isAlpha Char.isUpper Char.isLower at hc
    simp only [Bool.or_eq_true, Bool.and_eq_true, decide_eq_true_eq, ge_iff_le, UInt32.le_iff_toNat_le] at hc
    change 65 ≤ c.toNat ∧ c.toNat ≤ 90 ∨ 97 ≤ c.toNat ∧ c.toNat ≤ 122 at hc
    omega
  have hzeros : ∀ start ∈ digitZeros, start + 10 ≤ 58 ∨ 0x660 ≤ start := by decide
  refine List.any_eq_false.mpr fun start hstart => ?_
  have := hzeros start hstart
  simp only [Bool.and_eq_true, decide_eq_true_eq]
  omega

theorem lowerPi_letters {w : List Char} (hw : ∀ c ∈ w, c.isAlpha = true) : lowerPi true w = w := by
  induction w with
  | nil => rfl
  | cons c w ih =>
    have hrest := ih fun d hd => hw d (List.mem_cons_of_mem c hd)
    by_cases hc : c = 'P'
    · subst hc
      cases w with
      | nil => rfl
      | cons d w => simp [lowerPi, hrest]
    · rw [lowerPi_cons hc, hw c List.mem_cons_self, hrest]

section Outside

variable {ds : List Char} (hds : ∀ d ∈ ds, d.isAlpha = false)

include hds

theorem lowerPi_outside (cs : List Char) : lowerPi false (ds ++ cs) = ds ++ lowerPi false cs := by
  induction ds with
  | nil => rfl
  | cons d ds ih =>
    have hd := hds d List.mem_cons_self
    have hne : d ≠ 'P' := by
      intro heq
      simp [heq] at hd
    rw [List.cons_append, lowerPi_cons hne, hd, ih fun e he => hds e (List.mem_cons_of_mem d he), List.cons_append]

theorem setOffLetters_outside {d : Char} (hd : d.isAlpha = false) (cs : List Char) :
    setOffLetters (ds ++ d :: cs) = ds ++ setOffLetters (d :: cs) := by
  induction ds with
  | nil => rfl
  | cons e ds ih =>
    have hrest := ih fun f hf => hds f (List.mem_cons_of_mem e hf)
    obtain ⟨f, fs, hf, hsplit⟩ : ∃ f fs, f.isAlpha = false ∧ ds ++ d :: cs = f :: fs := by
      cases ds with
      | nil => exact ⟨d, cs, hd, rfl⟩
      | cons f ds => exact ⟨f, ds ++ d :: cs, hds f (by simp), rfl⟩
    rw [List.cons_append, List.cons_append, ← hrest, hsplit, setOffLetters, Reader.not_literalLetter_of_not_isAlpha hf]
    simp

theorem isVariableOf_outside {c : Char} (cs : List Char) : IsVariableOf c (ds ++ cs) ↔ IsVariableOf c cs := by
  induction ds with
  | nil => rfl
  | cons d ds ih =>
    rw [List.cons_append, isVariableOf_other (hds d List.mem_cons_self), ih fun e he => hds e (List.mem_cons_of_mem d he)]

end Outside

theorem setOffLetters_letters {w : List Char} (hw : ∀ c ∈ w, c.isAlpha = true) : setOffLetters w = w := by
  fun_induction setOffLetters w with
  | case1 => rfl
  | case2 c d w hset ih => simp [isDecimalDigit_of_isAlpha (hw c List.mem_cons_self)] at hset
  | case3 c d w hset ih => rw [ih fun e he => hw e (List.mem_cons_of_mem c he)]
  | case4 c => rfl

theorem setOffLetters_digit {d : Char} (hd : d.isDigit = true) {w : List Char} (hw : ∀ c ∈ w, c.isAlpha = true) :
    setOffLetters (d :: w) = d :: (setOffSign w ++ w) := by
  cases w with
  | nil => rfl
  | cons c w =>
    have hrest := setOffLetters_letters fun e he => hw e (List.mem_cons_of_mem c he)
    rw [setOffLetters, isDecimalDigit_of_isDigit hd, Bool.true_and, setOffSign, hrest, setOffLetters_letters hw]
    split_ifs <;> rfl

theorem spellRun_cons (c : Char) (cs : List Char) : spellRun (c :: cs) = c :: cs.flatMap fun d => ['*', d] := by
  induction cs generalizing c with
  | nil => rfl
  | cons d cs ih => rw [spellRun, ih, List.flatMap_cons]; rfl

namespace DecimalNumeral

theorem exists_concat (n : DecimalNumeral) : ∃ front d, n.chars = front ++ [d] ∧ d.isDigit = true := by
  refine ⟨n.whole ++ '.' :: n.fraction.dropLast, n.fraction.getLast n.fraction_ne_nil, ?_, ?_⟩
  · rw [chars, List.append_assoc, List.cons_append, List.dropLast_append_getLast]
  · exact n.isDigit_fraction _ (List.getLast_mem _)

end DecimalNumeral

namespace LetterRow

variable (w : LetterRow)

theorem isImaginary_iff {c : Char} {cs : List Char} (hcs : w.letters = c :: cs) :
    w.IsImaginary ↔ isLiteralLetter c = true ∧ startsWithLower cs = true := by
  constructor
  · intro ⟨d, ds, heq, hd, hds⟩
    obtain ⟨rfl, rfl⟩ := List.cons.inj (hcs.symm.trans heq)
    exact ⟨hd, hds⟩
  · intro ⟨hc, hlower⟩
    exact ⟨c, cs, hcs, hc, hlower⟩

theorem lowerPi_eq : lowerPi false w.letters = w.letters := by
  have hreserved := w.unreserved
  have hletters := w.isAlpha
  obtain ⟨c, cs, hcs⟩ := List.exists_cons_of_ne_nil w.ne_nil
  rw [hcs] at hreserved hletters ⊢
  have hrest : ∀ d ∈ cs, d.isAlpha = true := fun d hd => hletters d (List.mem_cons_of_mem c hd)
  by_cases hc : c = 'P'
  · subst hc
    cases cs with
    | nil => rfl
    | cons i cs =>
      rw [lowerPi] at hreserved ⊢
      split_ifs at hreserved ⊢ with hpi
      · -- what follows is no letter, so nothing follows
        obtain rfl : cs = [] := by
          cases cs with
          | nil => rfl
          | cons d cs => simp [startsOutsideLetters, hrest d (by simp)] at hpi
        exact absurd hreserved (by decide)
      · rw [lowerPi_letters hrest]
  · rw [lowerPi_cons hc, hletters c List.mem_cons_self, lowerPi_letters hrest]

theorem isReserved_eq : isReserved w.letters = false :=
  w.lowerPi_eq ▸ w.unreserved

theorem isVariableOf_iff {c : Char} : IsVariableOf c w.letters ↔ c ∈ w.letters := by
  have hrun := @isVariableOf_run c w.letters [] w.ne_nil w.isAlpha (by simp [BeginsOutside])
  have hnil : ¬IsVariableOf c [] := by simp [IsVariableOf, letterRuns]
  rw [List.append_nil] at hrun
  rw [hrun, or_iff_left hnil, and_iff_right w.isReserved_eq]

theorem spellProducts_eq {vars : List Char} (hvars : ∀ c ∈ w.letters, c ∈ vars) :
    spellProducts vars w.letters = spellRun w.letters := by
  have hrun := @spellProducts_run vars w.letters [] w.ne_nil w.isAlpha (by simp [BeginsOutside])
  have hall : w.letters.all (vars.contains ·) = true := by simpa using hvars
  rw [List.append_nil, spelledRun, w.isReserved_eq, hall] at hrun
  exact hrun.trans (List.append_nil _)

end LetterRow

end Text

open Text (LetterRow setOffSign)

namespace Reader

variable {n : DecimalNumeral} {w : LetterRow}

/-! ### Letters with product signs -/

theorem lexed_letter {d : Char} (hd : d.isAlpha = true) {more : List Char} {ls : List Lexeme}
    (hmore : ∀ c ∈ more.head?, c.isAlphanum = false) (hrest : Lexed more ls) : Lexed (d :: more) (.word [d] :: ls) := by
  have hspan : Literal.spanDigits Char.isAlphanum ([d] ++ more) = ([d], more) :=
    Literal.spanDigits_of_all (by simp [Char.isAlphanum, hd]) hmore
  rw [List.singleton_append, Literal.spanDigits, Prod.mk.injEq] at hspan
  refine .lexeme ?_ hrest
  simp [lexeme?, Literal.scan?_letter hd, mark?_letter hd, hd, hspan]

theorem isAlphanum_head?_factors (cs : List Char) : ∀ c ∈ (cs.flatMap fun d => ['*', d]).head?, c.isAlphanum = false := by
  cases cs with
  | nil => simp
  | cons d cs =>
    have hstar : '*'.isAlphanum = false := by decide
    simp [hstar]

theorem lexed_factors {cs : List Char} (hcs : ∀ c ∈ cs, c.isAlpha = true) :
    Lexed (cs.flatMap fun d => ['*', d]) (cs.flatMap fun d => [.mark .star, .word [d]]) := by
  induction cs with
  | nil => exact .nil
  | cons d cs ih =>
    have hd := hcs d List.mem_cons_self
    have hrest := ih fun e he => hcs e (List.mem_cons_of_mem d he)
    exact .lexeme (lexeme?_star hd _) (lexed_letter hd (isAlphanum_head?_factors cs) hrest)

/-- The tokens of factors, each behind a product sign. -/
def factorTokens (names : List String) : List Token :=
  names.flatMap fun name => [.mark .star, .word name]

theorem factorTokens_cons (name : String) (names : List String) :
    factorTokens (name :: names) = .mark .star :: .word name :: factorTokens names :=
  rfl

theorem spell_factors {vars cs : List Char} (hcs : ∀ c ∈ cs, c ∈ vars) :
    spell vars false (cs.flatMap fun d => [.mark .star, .word [d]]) = factorTokens (cs.map Char.toString) := by
  induction cs with
  | nil => rfl
  | cons d cs ih =>
    have hknown : isKnownWord vars [d] = true := by
      rw [isKnownWord, Bool.or_eq_true, List.any_eq_true]
      exact .inr ⟨d, hcs d List.mem_cons_self, by simp⟩
    have hrest := ih fun e he => hcs e (List.mem_cons_of_mem d he)
    simp [spell, hknown, hrest, factorTokens_cons]

/-! ### The phrase of a product -/

section Phrases

variable {l : Literal} {names : List String}

/-- No product sign is written in front of a factor that has one. -/
theorem productSign_factors (afterDot : Bool) (t : Token) : productSign afterDot t (factorTokens names) = [] := by
  cases names <;> simp [factorTokens, productSign, beginsOperand]

theorem insertProducts_factors (names : List String) : insertProducts false (factorTokens names) = factorTokens names := by
  induction names with
  | nil => rfl
  | cons name names ih =>
    have hafter : (Token.word name == .mark .dot) = false := rfl
    rw [factorTokens_cons, insertProducts_mark_cons (by decide) (by decide), insertProducts_cons, productSign_factors, hafter, ih]
    rfl

theorem insertProducts_number_factors (l : Literal) (names : List String) :
    insertProducts false (spellNumber l false ++ factorTokens names) = spellNumber l false ++ factorTokens names := by
  rw [insertProducts_spellNumber, productSign_factors, insertProducts_factors, List.nil_append]

/-- Between a number and the word behind it a product sign is written. -/
theorem insertProducts_number_word (l : Literal) (name : String) (names : List String) :
    insertProducts false (spellNumber l false ++ .word name :: factorTokens names) =
      spellNumber l false ++ factorTokens (name :: names) := by
  have hafter : (Token.word name == .mark .dot) = false := rfl
  have hsign : productSign false (.mark .closeParen) (.word name :: factorTokens names) = [.mark .star] := rfl
  rw [insertProducts_spellNumber, hsign, insertProducts_cons, productSign_factors, hafter, insertProducts_factors, factorTokens_cons]
  rfl

theorem closes_factors (names : List String) : closes 0 (factorTokens names) = true := by
  induction names with
  | nil => rfl
  | cons name names ih => exact (closes_cons (by simp) (by simp) _).trans ((closes_cons (by simp) (by simp) _).trans ih)

theorem grammarTokens_factors (names : List String) : grammarTokens (factorTokens names) = factorTokens names := by
  induction names with
  | nil => rfl
  | cons name names ih =>
    have hstar := Piece.grammarTokens_product (.inl rfl) (t := .word name) rfl rfl (factorTokens names)
    rw [@Piece.grammarTokens_cons (.word name) rfl rfl, ih] at hstar
    exact hstar

theorem isProduct_factors {ts : List Token} {p : Phrase} (h : Phrase.IsProduct ts p) (names : List String) :
    Phrase.IsProduct (ts ++ factorTokens names) (names.foldl (fun q name => .binary .mul q (.name name)) p) := by
  induction names generalizing ts p with
  | nil => simpa [factorTokens] using h
  | cons name names ih =>
    have hname : Phrase.IsOperand [.word name] (.name name) := fun _ hends => .name hends
    have hnext := ih (h.append (m := .star) rfl hname.factor)
    rwa [List.append_assoc] at hnext

/-- A number and the factors behind it are read as their product. -/
theorem phrase_of_factors (hform : l.isWellFormed = true) (hnames : ∀ name ∈ names, isCallable name = false) :
    (applications? (spellNumber l false ++ factorTokens names)).bind Phrase.ofTokens? =
      some (names.foldl (fun p name => .binary .mul p (.name name)) l.phrase) := by
  have happlied : (factorTokens names ++ [Token.finish]).IsChain Applied := by
    induction names with
    | nil => exact .singleton _
    | cons name names ih =>
      have hrest := ih fun other hother => hnames other (List.mem_cons_of_mem name hother)
      exact applied_cons (@applied_cons _ hrest (.word name) (hnames name List.mem_cons_self)) rfl
  refine ofTokens?_of_applied ?_ ?_ ?_ ?_ (isProduct_factors (isOperand_spellNumber hform).factor.product names).sum
  · rw [spellNumber_false]
    exact closes_factors names
  · simp [spellNumber_false, callOn, factorTokens]
  · rw [List.append_assoc]
    exact applied_spellNumber happlied l false
  · rw [spellNumber_false]
    change grammarTokens (.word l.callWord :: .mark .openParen :: .literal l :: .mark .closeParen :: factorTokens names) = _
    rw [Piece.grammarTokens_cons rfl rfl, Piece.grammarTokens_cons rfl rfl, Piece.grammarTokens_cons rfl rfl,
      Piece.grammarTokens_cons rfl rfl, grammarTokens_factors]
    rfl

/-- The product of a phrase and names stands for a tree exactly if the phrase does and all the names are known. -/
theorem treeOf_factors_eq_ok_iff {text : String} {vars : List Char} {p : Phrase} {u : Tree} :
    treeOf text vars (names.foldl (fun q name => .binary .mul q (.name name)) p) = .ok u ↔
      ∃ t, treeOf text vars p = .ok t ∧
        (∀ name ∈ names, (∃ c ∈ vars, name = c.toString) ∨ Tree.isNamedConstant name = true) ∧
        names.foldl (fun v name => .binary .mul v (.symbol name)) t = u := by
  induction names generalizing p with
  | nil => simp
  | cons name names ih =>
    rw [List.foldl_cons, ih]
    constructor
    · intro ⟨v, hv, hnames, hfold⟩
      obtain ⟨op, hop, t, ht, s, hs, hbinary⟩ := treeOf_binary_eq_ok_iff.mp hv
      obtain rfl : Op.mul = op := Option.some.inj hop
      obtain ⟨rfl, hname⟩ := treeOf_name_eq_ok_iff.mp hs
      exact ⟨t, ht, List.forall_mem_cons.mpr ⟨hname, hnames⟩, by rw [List.foldl_cons, hbinary, hfold]⟩
    · intro ⟨t, ht, hnames, hfold⟩
      obtain ⟨hname, hnames⟩ := List.forall_mem_cons.mp hnames
      exact ⟨_, treeOf_binary_eq_ok_iff.mpr ⟨.mul, rfl, t, ht, _, treeOf_name_eq_ok_iff.mpr ⟨rfl, hname⟩, rfl⟩, hnames, hfold⟩

end Phrases

/-! ### A decimal and a row of letters -/

theorem isAllowed_row (n : DecimalNumeral) (w : LetterRow) {c : Char} (hc : c ∈ n.chars ++ w.letters) : isAllowed c = true := by
  rcases List.mem_append.mp hc with hc | hc
  · exact isAllowed_of_mem_decimal hc
  · simp [isAllowed, Char.isAlphanum, w.isAlpha c hc]

theorem not_isBlank_row (n : DecimalNumeral) (w : LetterRow) {c : Char} (hc : c ∈ n.chars ++ w.letters) :
    Text.isBlank c = false := by
  rcases List.mem_append.mp hc with hc | hc
  · rcases n.mem_chars hc with rfl | hdigit
    · decide
    · exact Piece.not_isBlank_of_isAlphanum (by simp [Char.isAlphanum, hdigit])
  · exact Piece.not_isBlank_of_isAlphanum (by simp [Char.isAlphanum, w.isAlpha c hc])

theorem trimChars_row (n : DecimalNumeral) (w : LetterRow) : Text.trimChars (n.chars ++ w.letters) = n.chars ++ w.letters :=
  Text.trimChars_eq_self (fun _ hc => not_isBlank_row n w (List.mem_of_head? hc))
    fun _ hc => not_isBlank_row n w (List.mem_of_getLast? hc)

/-- A plain text sets the letters off from the number where they need it, and changes nothing else. -/
theorem plain_row (n : DecimalNumeral) (w : LetterRow) :
    Text.plain (n.chars ++ w.letters) = n.chars ++ (setOffSign w.letters ++ w.letters) := by
  have hfront : ∀ c ∈ n.chars, c.isAlpha = false := fun _ => n.isAlpha_of_mem_chars
  have hlower : Text.lowerPi false (n.chars ++ w.letters) = n.chars ++ w.letters := by
    rw [Text.lowerPi_outside hfront, w.lowerPi_eq]
  obtain ⟨front, d, hchars, hd⟩ := n.exists_concat
  rw [Piece.plain_eq_setOffLetters (fun _ => isAllowed_row n w) (trimChars_row n w) hlower, hchars, List.append_assoc,
    List.singleton_append, Text.setOffLetters_outside, Text.setOffLetters_digit hd w.isAlpha, List.append_assoc]
  · rfl
  · exact fun c hc => hfront c (by simp [hchars, hc])
  · exact isAlpha_of_isDigit hd

theorem isAlpha_setOffSign (cs : List Char) : ∀ c ∈ setOffSign cs, c.isAlpha = false := by
  cases cs with
  | nil => simp [setOffSign]
  | cons c cs =>
    rw [setOffSign]
    have hstar : '*'.isAlpha = false := by decide
    split_ifs <;> simp [hstar]

theorem mem_variableLetters_row (n : DecimalNumeral) (w : LetterRow) {c : Char} :
    c ∈ Text.variableLetters (n.chars ++ (setOffSign w.letters ++ w.letters)) ↔ c ∈ w.letters := by
  rw [Text.mem_variableLetters, Text.isVariableOf_outside fun _ => n.isAlpha_of_mem_chars,
    Text.isVariableOf_outside (isAlpha_setOffSign _), w.isVariableOf_iff]

theorem isBalanced_factors {front : List Lexeme} (hfront : ∀ l ∈ front, l ≠ .mark .openParen ∧ l ≠ .mark .closeParen)
    (cs : List Char) : isBalanced (front ++ cs.flatMap fun d => [.mark .star, .word [d]]) = true := by
  have hls : ∀ l ∈ front ++ cs.flatMap fun d => [.mark .star, .word [d]], l ≠ .mark .openParen ∧ l ≠ .mark .closeParen := by
    refine List.forall_mem_append.mpr ⟨hfront, ?_⟩
    intro l hl
    obtain ⟨d, -, hl⟩ := List.mem_flatMap.mp hl
    rcases List.mem_pair.mp hl with rfl | rfl <;> simp
  rw [isBalanced, List.count_eq_zero.mpr fun h => (hls _ h).1 rfl, List.count_eq_zero.mpr fun h => (hls _ h).2 rfl]
  rfl

theorem isAllowed_plain_row (n : DecimalNumeral) (w : LetterRow) {c : Char}
    (hc : c ∈ n.chars ++ (setOffSign w.letters ++ w.letters)) : isAllowed c = true := by
  rw [List.mem_append, List.mem_append] at hc
  rcases hc with hc | hc | hc
  · exact isAllowed_row n w (List.mem_append_left _ hc)
  · have hstar : c = '*' := by
      unfold setOffSign at hc
      split at hc
      · simp at hc
      · split_ifs at hc
        · exact List.mem_singleton.mp hc
        · simp at hc
    rw [hstar]
    decide
  · exact isAllowed_row n w (List.mem_append_right _ hc)

/-- The text is cut into lexemes that spell the decimal and factors behind it. -/
def SpellsFactors (n : DecimalNumeral) (vars cs : List Char) (names : List String) : Prop :=
  ∃ ls, Lexed cs ls ∧ isBalanced ls = true ∧
    insertProducts false (spell vars false ls) = spellNumber n.literal false ++ factorTokens names

section Spelled

variable (n) {vars cs : List Char} (hletters : ∀ c ∈ cs, c.isAlpha = true) (hvars : ∀ c ∈ cs, c ∈ vars)

include hletters hvars

/-- Every letter has a sign before it. -/
theorem spellsFactors_signed : SpellsFactors n vars (n.chars ++ cs.flatMap fun d => ['*', d]) (cs.map Char.toString) := by
  have hends : Literal.EndsDigits (cs.flatMap fun d => ['*', d]) := by
    cases cs <;> simp [Literal.EndsDigits, Text.isLiteralLetter]
  refine ⟨_, lexed_decimal hends (lexed_factors hletters), @isBalanced_factors [_] (by simp) cs, ?_⟩
  rw [spell, spell_factors hvars]
  exact insertProducts_number_factors n.literal _

/-- The unit of an imaginary number is its first factor. -/
theorem spellsFactors_imaginary :
    SpellsFactors n vars (n.chars ++ 'J' :: cs.flatMap fun d => ['*', d]) ("I" :: cs.map Char.toString) := by
  have hlexeme : lexeme? (n.chars ++ 'J' :: cs.flatMap fun d => ['*', d]) =
      some (.number n.literal true, cs.flatMap fun d => ['*', d]) := by
    unfold lexeme?
    rw [scan?_imaginary]
  refine ⟨_, .lexeme hlexeme (lexed_factors hletters), @isBalanced_factors [_] (by simp) cs, ?_⟩
  rw [spell, spell_factors hvars]
  exact insertProducts_number_factors n.literal ("I" :: cs.map Char.toString)

/-- The first letter follows the number directly. -/
theorem spellsFactors_beside {c : Char} (hc : c.isAlpha = true) (hvar : c ∈ vars) (hliteral : Text.isLiteralLetter c = false) :
    SpellsFactors n vars (n.chars ++ c :: cs.flatMap fun d => ['*', d]) ((c :: cs).map Char.toString) := by
  have hends : Literal.EndsDigits (c :: cs.flatMap fun d => ['*', d]) := by
    intro d hd
    obtain rfl : c = d := by simpa using hd
    refine ⟨isDigit_of_isAlpha hc, ?_, hliteral⟩
    rintro rfl
    simp at hc
  have hknown : isKnownWord vars [c] = true := by
    rw [isKnownWord, Bool.or_eq_true, List.any_eq_true]
    exact .inr ⟨c, hvar, by simp⟩
  have hword : String.ofList [c] = c.toString := by simp
  refine ⟨_, lexed_decimal hends (lexed_letter hc (isAlphanum_head?_factors cs) (lexed_factors hletters)),
    @isBalanced_factors [_, _] (by simp) cs, ?_⟩
  simp only [spell, hknown, Bool.or_true, if_true, hword, List.singleton_append, spell_factors hvars]
  exact insertProducts_number_word n.literal c.toString _

end Spelled

theorem isCallable_row (w : LetterRow) : ∀ name ∈ w.letters.map Char.toString, isCallable name = false := by
  intro name hname
  obtain ⟨c, -, rfl⟩ := List.mem_map.mp hname
  exact isCallable_letter c

/-- The factors that are spelled behind a decimal: the letters of the row, or the imaginary unit before those but the first. -/
theorem exists_spellsFactors (n : DecimalNumeral) (w : LetterRow) {vars : List Char} (hvars : ∀ c ∈ w.letters, c ∈ vars) :
    ∃ names, SpellsFactors n vars (n.chars ++ (setOffSign w.letters ++ Text.spellRun w.letters)) names ∧
      (∀ name ∈ names, isCallable name = false) ∧ (¬w.IsImaginary → names = w.letters.map Char.toString) ∧
      (w.IsImaginary → "I" ∈ names) := by
  have hletters := w.isAlpha
  have hunfused := w.unfused
  have hcallable := isCallable_row w
  obtain ⟨c, cs, hcs⟩ := List.exists_cons_of_ne_nil w.ne_nil
  have himaginary := w.isImaginary_iff hcs
  rw [hcs] at hvars hletters hunfused hcallable ⊢
  have hrest : (∀ d ∈ cs, d.isAlpha = true) ∧ ∀ d ∈ cs, d ∈ vars :=
    ⟨fun d hd => hletters d (List.mem_cons_of_mem c hd), fun d hd => hvars d (List.mem_cons_of_mem c hd)⟩
  rw [Text.spellRun_cons]
  cases hliteral : Text.isLiteralLetter c with
  | false =>
    rw [show setOffSign (c :: cs) = [] by simp [setOffSign, hliteral], List.nil_append]
    exact ⟨_, spellsFactors_beside n hrest.1 hrest.2 (hletters c (by simp)) (hvars c (by simp)) hliteral, hcallable, fun _ => rfl,
      fun h => absurd (himaginary.mp h).1 (by simp [hliteral])⟩
  | true =>
    obtain rfl : c = 'J' := by
      have hne := hunfused c List.mem_cons_self
      simpa [Text.isLiteralLetter, hne] using hliteral
    cases hlower : Text.startsWithLower cs with
    | false =>
      rw [show setOffSign ('J' :: cs) = ['*'] by simp [setOffSign, hliteral, hlower]]
      exact ⟨_, spellsFactors_signed n hletters hvars, hcallable, fun _ => rfl,
        fun h => absurd (himaginary.mp h).2 (by simp [hlower])⟩
    | true =>
      rw [show setOffSign ('J' :: cs) = [] by simp [setOffSign, hlower], List.nil_append]
      refine ⟨_, spellsFactors_imaginary n hrest.1 hrest.2, ?_, fun h => absurd (himaginary.mpr ⟨hliteral, hlower⟩) h,
        fun _ => List.mem_cons_self⟩
      intro name hname
      rcases List.mem_cons.mp hname with rfl | hname
      · decide
      · exact hcallable name (List.mem_cons_of_mem _ hname)

/-- No letter behind an imaginary number is its unit. -/
theorem not_mem_of_isImaginary (h : w.IsImaginary) : 'I' ∉ w.letters := by
  obtain ⟨c, cs, hcs, hliteral, -⟩ := h
  have hincreasing := w.increasing
  have hunfused := w.unfused c (by simp [hcs])
  obtain rfl : c = 'J' := by simpa [Text.isLiteralLetter, hunfused] using hliteral
  rw [hcs, List.pairwise_cons] at hincreasing
  rw [hcs, List.mem_cons, not_or]
  exact ⟨by decide, fun hmem => absurd (hincreasing.1 'I' hmem) (by decide)⟩

end Reader

namespace Tree

/-- The product of a tree and letters, from left to right. -/
def timesLetters (t : Tree) (letters : List Char) : Tree :=
  letters.foldl (fun u c => binary .mul u (.symbol c.toString)) t

/-- The product of a number and letters. -/
def multiple (q : ℚ) (letters : List Char) : Tree :=
  timesLetters (.const q) letters

end Tree

namespace Reader

/-- A decimal and a row of letters are read as their product, unless the decimal is too long or imaginary. -/
theorem ofText_row_eq_ok_iff {n : DecimalNumeral} {w : LetterRow} {u : Tree} :
    Tree.ofText (String.ofList (n.chars ++ w.letters)) = .ok u ↔
      n.IsShort ∧ ¬w.IsImaginary ∧ Tree.multiple n.value w.letters = u := by
  have hvars {c : Char} := @mem_variableLetters_row n w c
  have hspelled : Text.spellProducts (Text.variableLetters (n.chars ++ (setOffSign w.letters ++ w.letters)))
      (n.chars ++ (setOffSign w.letters ++ w.letters)) = n.chars ++ (setOffSign w.letters ++ Text.spellRun w.letters) := by
    rw [Text.spellProducts_outside fun _ => n.isAlpha_of_mem_chars, Text.spellProducts_outside (isAlpha_setOffSign _),
      w.spellProducts_eq fun _ => hvars.mpr]
  obtain ⟨names, ⟨ls, hlexed, hbalanced, htokens⟩, hcallable, hletters, hunit⟩ := exists_spellsFactors n w fun _ => hvars.mpr
  have hphrase := phrase_of_factors (l := n.literal) rfl hcallable
  rw [← htokens] at hphrase
  rw [← hspelled] at hlexed
  rw [ofText_of_lexed (by rw [String.toList_ofList, plain_row]) (List.append_ne_nil_of_left_ne_nil chars_ne_nil _)
    (fun _ => isAllowed_plain_row n w) hlexed hbalanced hphrase, treeOf_factors_eq_ok_iff]
  constructor
  · intro ⟨t, ht, hnames, hfold⟩
    have hshort : n.IsShort := by
      by_contra hlong
      simp [treeOf_phrase_of_none (n.literal_value?_eq_none hlong)] at ht
    obtain rfl := Except.ok.inj ((treeOf_phrase (n.literal_value? hshort) _ _).symm.trans ht)
    have hreal : ¬w.IsImaginary := by
      intro himaginary
      rcases hnames "I" (hunit himaginary) with ⟨c, hc, heq⟩ | hconstant
      · obtain rfl : 'I' = c := by simpa using congrArg String.toList heq
        exact not_mem_of_isImaginary himaginary (hvars.mp hc)
      · exact absurd hconstant (by decide)
    rw [hletters hreal, List.foldl_map] at hfold
    exact ⟨hshort, hreal, hfold⟩
  · intro ⟨hshort, hreal, hmultiple⟩
    refine ⟨_, treeOf_phrase (n.literal_value? hshort) _ _, ?_, ?_⟩
    · intro name hname
      rw [hletters hreal] at hname
      obtain ⟨c, hc, rfl⟩ := List.mem_map.mp hname
      exact .inl ⟨c, hvars.mpr hc, rfl⟩
    · rw [hletters hreal, List.foldl_map]
      exact hmultiple

end Reader

end AlgebraTutor
