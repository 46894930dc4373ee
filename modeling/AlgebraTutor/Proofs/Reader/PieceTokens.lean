import AlgebraTutor.Proofs.Reader.PieceLexemes

/-!
# The tokens of a written tree

The lexemes of pieces are spelled piece by piece. A product sign is written within a multiple and nowhere else, no
implicit application is left to write out, and the grammar takes a caret as a power.
-/

namespace AlgebraTutor.Reader

namespace Piece

/-- With the given variables, the name of a piece is one that a word of the text stands for. -/
def Known (vars : List Char) : Piece → Prop
  | .name w | .multiple _ w => (∃ c ∈ vars, w = c.toString) ∨ Tree.isNamedConstant w = true
  | _ => True

/-- The tokens of a number. -/
def numberTokens (n : Nat) : List Token :=
  callOn "integer" (.literal (.integer 10 (Nat.toDigits 10 n)))

/-- The tokens that a piece is spelled with. -/
def spelled : Piece → List Token
  | .number n => numberTokens n
  | .name w => [.word w]
  | .multiple n w => numberTokens n ++ [.word w]
  | .opening f => [.word f, .mark .openParen]
  | .openParen => [.mark .openParen]
  | .closeParen => [.mark .closeParen]
  | .minus => [.mark .minus]
  | .operator op => [.mark (markOf op)]
  | .comma => [.mark .comma]

/-- The tokens of a piece with its product written out. -/
def written : Piece → List Token
  | .multiple n w => numberTokens n ++ [.mark .star, .word w]
  | p => p.spelled

/-- The tokens of a piece as the grammar takes them. -/
def tokens : Piece → List Token
  | .operator .pow => [.mark .doubleStar]
  | p => p.written

variable {vars : List Char} {ps : List Piece}

theorem Known.isKnownWord {w : String} (h : (∃ c ∈ vars, w = c.toString) ∨ Tree.isNamedConstant w = true) :
    isKnownWord vars w.toList = true := by
  rcases h with ⟨c, hc, rfl⟩ | hconstant
  · rw [Reader.isKnownWord, Bool.or_eq_true, List.any_eq_true]
    exact .inr ⟨c, hc, by simp⟩
  · simp only [Tree.isNamedConstant, Bool.or_eq_true, beq_iff_eq] at hconstant
    rcases hconstant with rfl | rfl <;> rfl

theorem spell_lexemes (hknown : ∀ p ∈ ps, p.Known vars) (hproper : ∀ p ∈ ps, p.Proper) :
    spell vars false (lexemes ps) = ps.flatMap spelled := by
  induction ps with
  | nil => rfl
  | cons p ps ih =>
    have hrest := ih (fun q hq => hknown q (List.mem_cons_of_mem p hq)) fun q hq => hproper q (List.mem_cons_of_mem p hq)
    have hp := hknown p List.mem_cons_self
    have hfunction := hproper p List.mem_cons_self
    have hlexemes : lexemes (p :: ps) = p.atomLexemes ++ (p.signLexemes ++ lexemes ps) := by simp [lexemes]
    rw [hlexemes, List.flatMap_cons, ← hrest]
    cases p with
    | number n => simp [atomLexemes, signLexemes, spell, spellNumber, spelled, numberTokens]
    | name w => simp [atomLexemes, signLexemes, spell, Known.isKnownWord hp, spelled]
    | multiple n w =>
      simp [atomLexemes, signLexemes, spell, spellNumber, Known.isKnownWord hp, spelled, numberTokens]
    | opening f =>
      simp only [atomLexemes, signLexemes, List.singleton_append, spell, isKnownWord_function hfunction,
        String.ofList_toList]
      rfl
    | operator op => cases op <;> rfl
    | _ => rfl

theorem begins_of_spelled {p : Piece} (hbegins : p.begins = false) (hproper : p.Proper) (more : List Token) :
    (p.spelled ++ more).head?.any beginsOperand = false := by
  cases p with
  | closeParen | comma => rfl
  | operator op => cases op <;> rfl
  | _ => simp [begins] at hbegins

theorem not_callable_name {w : String} (hw : IsName w) : isCallable w = false := by
  rcases hw with ⟨c, -, rfl⟩ | rfl
  · exact isCallable_letter c
  · decide

theorem isCallable_function {f : String} (hf : f ∈ Text.functionNames) : isCallable f = true := by
  have hfunctions : ∀ f ∈ Text.functionNames, isCallable f = true := by decide
  exact hfunctions f hf

theorem insertProducts_spelled (halternate : Alternate ps) (hproper : ∀ p ∈ ps, p.Proper) :
    insertProducts false (ps.flatMap spelled) = ps.flatMap written := by
  induction ps with
  | nil => rfl
  | cons p ps ih =>
    have hp := hproper p List.mem_cons_self
    have hlater : ∀ q ∈ ps, q.Proper := fun q hq => hproper q (List.mem_cons_of_mem p hq)
    rw [List.flatMap_cons, List.flatMap_cons, ← ih halternate.tail hlater]
    have hsign {t : Token} (ht : p.ends = true ∨ endsOperand false t = false) :
        productSign false t (ps.flatMap spelled) = [] := by
      rcases ht with hends | ht
      · have hhead : (ps.flatMap spelled).head?.any beginsOperand = false := by
          cases ps with
          | nil => rfl
          | cons q qs =>
            have hq : q.begins = false := by simpa [hends] using (List.isChain_cons_cons.mp halternate).1
            exact begins_of_spelled hq (hlater q List.mem_cons_self) _
        simp [productSign, hhead]
      · simp [productSign, ht]
    have hmark {m : Mark} (hdot : m ≠ .dot) (hm : p.ends = true ∨ m ≠ .closeParen) :
        insertProducts false (.mark m :: ps.flatMap spelled) = .mark m :: insertProducts false (ps.flatMap spelled) := by
      have hafter : (Token.mark m == .mark .dot) = false := by simpa using hdot
      rw [insertProducts_cons, hsign (hm.imp_right fun h => by cases m <;> simp_all [endsOperand]), hafter]
      rfl
    have hword {w : String} (hends : p.ends = true) :
        insertProducts false (.word w :: ps.flatMap spelled) = .word w :: insertProducts false (ps.flatMap spelled) := by
      rw [insertProducts_cons, hsign (.inl hends)]
      rfl
    cases p with
    | number n =>
      have hcall := @insertProducts_callOn "integer" (.literal (.integer 10 (Nat.toDigits 10 n))) (by decide)
        (by simp) (ps.flatMap spelled)
      rwa [hsign (.inl rfl)] at hcall
    | name w => exact hword rfl
    | multiple n w =>
      have hcall := @insertProducts_callOn "integer" (.literal (.integer 10 (Nat.toDigits 10 n))) (by decide)
        (by simp) (.word w :: ps.flatMap spelled)
      rw [hword rfl] at hcall
      simpa [spelled, written, numberTokens, productSign, endsOperand, beginsOperand] using hcall
    | opening f =>
      have hnone (ts : List Token) : productSign false (.word f) ts = [] := by
        simp [productSign, endsOperand, isCallable_function hp]
      rw [spelled, List.cons_append, insertProducts_cons, hnone]
      exact congrArg _ (hmark (by simp) (.inr (by simp)))
    | operator op =>
      refine hmark ?_ (.inr ?_) <;> cases op <;> simp [markOf]
    | _ => exact hmark (by simp) (by simp [ends])

/-! ### Applications -/

theorem applied_spelled (hproper : ∀ p ∈ ps, p.Proper) : (ps.flatMap spelled ++ [Token.finish]).IsChain Applied := by
  induction ps with
  | nil => exact .singleton _
  | cons p ps ih =>
    have hrest := ih fun q hq => hproper q (List.mem_cons_of_mem p hq)
    have hp := hproper p List.mem_cons_self
    rw [List.flatMap_cons, List.append_assoc]
    cases p with
    | number n => exact applied_callOn hrest _ rfl
    | name w => exact applied_cons hrest (not_callable_name hp)
    | multiple n w =>
      rw [spelled, List.append_assoc]
      exact applied_callOn (@applied_cons _ hrest (.word w) (not_callable_name hp.2.1)) _ rfl
    | opening f => exact List.isChain_cons_cons.mpr ⟨fun _ => rfl, applied_cons hrest rfl⟩
    | _ => exact applied_cons hrest rfl

theorem finish_not_mem_spelled : Token.finish ∉ ps.flatMap spelled := by
  rw [List.mem_flatMap]
  rintro ⟨p, -, hp⟩
  cases p <;> simp [spelled, numberTokens, callOn] at hp

/-! ### Marks of the grammar -/

theorem grammarTokens_cons {t : Token} (hsplit : splitMark t = [t]) (ht : standsAlone t = true) (ts : List Token) :
    grammarTokens (t :: ts) = t :: grammarTokens ts :=
  grammarTokens_append hsplit ht [] ts

theorem grammarTokens_caret (ts : List Token) :
    grammarTokens (.mark .caret :: ts) = .mark .doubleStar :: grammarTokens ts :=
  rfl

/-- A product sign or a quotient sign is not joined with a token that stands alone. -/
theorem grammarTokens_product {m : Mark} (hm : m = .star ∨ m = .slash) {t : Token} (hsplit : splitMark t = [t])
    (ht : standsAlone t = true) (ts : List Token) :
    grammarTokens (.mark m :: t :: ts) = .mark m :: grammarTokens (t :: ts) := by
  have hne : t ≠ .mark .star ∧ t ≠ .mark .slash ∧ t ≠ .mark .dot := by simpa [standsAlone, and_assoc] using ht
  have hjoined : fuseMarks (.mark m :: t :: ts.flatMap splitMark) = .mark m :: fuseMarks (t :: ts.flatMap splitMark) := by
    rw [fuseMarks]
    · exact fun _ _ h => hne.1 (List.cons.inj h).1
    · exact fun _ _ h => hne.2.1 (List.cons.inj h).1
    · exact fun _ _ h => hne.2.2 (List.cons.inj h).1
  have hmark : splitMark (.mark m) = [.mark m] := by rcases hm with rfl | rfl <;> rfl
  rw [grammarTokens, grammarTokens, List.flatMap_cons, List.flatMap_cons, hmark, hsplit]
  exact hjoined

theorem written_of_begins {p : Piece} (hbegins : p.begins = true) :
    ∃ t ts, p.written = t :: ts ∧ splitMark t = [t] ∧ standsAlone t = true := by
  cases p with
  | operator | comma | closeParen => simp [begins] at hbegins
  | _ => exact ⟨_, _, rfl, rfl, rfl⟩

theorem grammarTokens_written (halternate : Alternate ps) : grammarTokens (ps.flatMap written) = ps.flatMap tokens := by
  induction ps with
  | nil => rfl
  | cons p ps ih =>
    have hrest := ih halternate.tail
    have hcall {l : Literal} (ts : List Token) :
        grammarTokens (callOn "integer" (.literal l) ++ ts) = callOn "integer" (.literal l) ++ grammarTokens ts := by
      change grammarTokens (.word "integer" :: .mark .openParen :: .literal l :: .mark .closeParen :: ts) = _
      rw [grammarTokens_cons rfl rfl, grammarTokens_cons rfl rfl, grammarTokens_cons rfl rfl, grammarTokens_cons rfl rfl]
      rfl
    have hproduct {m : Mark} (hm : m = .star ∨ m = .slash) (hends : p.ends = false) :
        grammarTokens (.mark m :: ps.flatMap written) = .mark m :: grammarTokens (ps.flatMap written) := by
      cases ps with
      | nil => rcases hm with rfl | rfl <;> rfl
      | cons q qs =>
        have hq : q.begins = true := by simpa [hends] using (List.isChain_cons_cons.mp halternate).1
        obtain ⟨t, ts, hwritten, hsplit, ht⟩ := written_of_begins hq
        rw [List.flatMap_cons, hwritten]
        exact grammarTokens_product hm hsplit ht _
    rw [List.flatMap_cons, List.flatMap_cons, ← hrest]
    cases p with
    | number n => exact hcall _
    | multiple n w =>
      have hstar := grammarTokens_product (.inl rfl) (t := .word w) rfl rfl (ps.flatMap written)
      rw [@grammarTokens_cons (.word w) rfl rfl] at hstar
      rw [written, numberTokens, List.append_assoc, hcall]
      exact congrArg _ hstar
    | opening f =>
      change grammarTokens (.word f :: .mark .openParen :: ps.flatMap written) = _
      rw [grammarTokens_cons rfl rfl, grammarTokens_cons rfl rfl]
      rfl
    | operator op =>
      cases op with
      | mul => exact hproduct (.inl rfl) rfl
      | div => exact hproduct (.inr rfl) rfl
      | pow => exact grammarTokens_caret _
      | _ => exact grammarTokens_cons rfl rfl _
    | _ => exact grammarTokens_cons rfl rfl _

/-! ### Reading the text of pieces -/

theorem isVariableOf_letter {c : Char} (hc : c.isAlpha = true) (hreserved : Text.isReserved [c] = false) {ds : List Char}
    (hds : ∀ d ∈ ds, d.isAlpha = false) : Text.IsVariableOf c (ds ++ [c]) := by
  induction ds with
  | nil =>
    have hrun := @Text.isVariableOf_run c [c] [] (by simp) (by simpa using hc) (by simp [Text.BeginsOutside])
    exact hrun.mpr (.inl ⟨hreserved, List.mem_singleton_self c⟩)
  | cons d ds ih =>
    exact (Text.isVariableOf_other (hds d List.mem_cons_self) _).mpr (ih fun e he => hds e (List.mem_cons_of_mem d he))

/-- A letter at the end of a text without other letters is a variable of it, or the named constant. -/
theorem isVariableOf_or_named {c : Char} (hc : c.isAlpha = true) {ds : List Char} (hds : ∀ d ∈ ds, d.isAlpha = false) :
    Text.IsVariableOf c (ds ++ [c]) ∨ Tree.isNamedConstant c.toString = true := by
  cases hreserved : Text.isReserved [c] with
  | false => exact .inl (isVariableOf_letter hc hreserved hds)
  | true =>
    have hnames : ∀ name ∈ Text.reservedNames, name.toList.length = 1 → name.toList = ['E'] := by decide
    obtain ⟨name, hname, heq⟩ := List.any_eq_true.mp hreserved
    rw [beq_iff_eq] at heq
    have hE := hnames name hname (by rw [heq]; rfl)
    obtain rfl : c = 'E' := List.head_eq_of_cons_eq (heq.symm.trans hE)
    exact .inr (by decide)

/-- The names of a written tree are the variables of its text, and the named constants. -/
theorem known_of_variableLetters {p : Piece} (halternate : Alternate ps) (hproper : ∀ q ∈ ps, q.Proper) (hp : p ∈ ps) :
    p.Known (Text.variableLetters (text ps)) := by
  have hname {w : String} {ds : List Char} (hw : IsName w) (hds : ∀ d ∈ ds, d.isAlpha = false)
      (hatom : p.atom = ds ++ w.toList) :
      (∃ c ∈ Text.variableLetters (text ps), w = c.toString) ∨ Tree.isNamedConstant w = true := by
    rcases hw with ⟨c, hc, rfl⟩ | rfl
    · refine (isVariableOf_or_named hc hds).imp_left fun hvariable => ?_
      refine ⟨c, Text.mem_variableLetters.mpr (isVariableOf_text halternate hproper hp ?_), rfl⟩
      rw [hatom]
      simpa using hvariable
    · exact .inr (by decide)
  have hproper' := hproper p hp
  cases p with
  | name w => exact hname hproper' (by simp) (List.nil_append _).symm
  | multiple n w => exact hname hproper'.2.1 (fun d hd => isAlpha_digits hd) rfl
  | _ => trivial

/-- The text of pieces is read as the phrase that the grammar derives from their tokens, and their names are known there. -/
theorem exists_known_of_derives {q : Phrase} (h : IsOperandText ps) (hclosed : closes 0 (ps.flatMap spelled) = true)
    (hbalanced : isBalanced (lexemes ps) = true) (hderives : Phrase.Derives .sum (ps.flatMap tokens) q []) :
    ∃ vars, (∀ p ∈ ps, p.Known vars) ∧ ∀ t, treeOf (String.ofList (text ps)) vars q = .ok t →
      Tree.ofText (String.ofList (text ps)) = .ok t := by
  have hknown : ∀ p ∈ ps, p.Known (Text.variableLetters (text ps)) :=
    fun p hp => known_of_variableLetters h.alternate h.proper hp
  refine ⟨_, hknown, fun t htree => ?_⟩
  have happlied : applications? (ps.flatMap written) = some (ps.flatMap written) := by
    rw [← insertProducts_spelled h.alternate h.proper]
    refine applications?_of_applied ?_ ?_ (applied_insertProducts (applied_spelled h.proper))
    · rwa [closes_insertProducts]
    · rw [mem_insertProducts (by simp)]
      exact finish_not_mem_spelled
  have hplain : Text.plain (String.ofList (text ps)).toList = text ps := by rw [String.toList_ofList, plain_text h]
  refine (ofText_eq_ok_iff hplain).mpr ⟨?_, fun c hc => isAllowed_of_mem_text h.proper hc, lexemes ps, ?_, hbalanced, q,
    ⟨ps.flatMap written, ?_, ?_⟩, htree⟩
  · obtain ⟨p, hp, hbegins⟩ := h.begins
    obtain ⟨rest, rfl⟩ := List.head?_eq_some_iff.mp hp
    simp [text, chars_ne_nil (h.proper p List.mem_cons_self) (.inl hbegins)]
  · rw [LexedAs, spellProducts_text _ h]
    exact lexed_text h.alternate h.proper
  · rw [spell_lexemes hknown h.proper, insertProducts_spelled h.alternate h.proper, happlied]
  · exact Phrase.ofTokens?_of_derives (by rwa [grammarTokens_written h.alternate])

end Piece

end AlgebraTutor.Reader
