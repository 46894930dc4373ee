import AlgebraTutor.Proofs.Reader.Respelling

/-!
# Spelling lexemes

What the tokens of a text owe to its lexemes. A dot and the name of a function are tokens if and only if they are
lexemes, and where neither occurs every word that can be applied is the word of a number or of a letter, which stands
before its parenthesis.
-/

namespace AlgebraTutor.Reader

variable {vars : List Char} {afterDot : Bool} {ls : List Lexeme}

theorem spell_append (m : Mark) (ls' : List Lexeme) :
    spell vars afterDot (ls ++ .mark m :: ls') = spell vars afterDot ls ++ .mark m :: spell vars (m == .dot) ls' := by
  induction ls generalizing afterDot with
  | nil => rfl
  | cons l ls ih => cases l <;> simp [spell, ih]

/-! ### Fused words -/

/-- The tokens of a fused word: words and quoted texts, and the parentheses of calls. -/
theorem mem_spellFused_cases {n : Nat} {cs : List Char} {v : Token} (hv : v ∈ spellFused vars n cs) :
    (∃ w, v = .word w) ∨ (∃ s, v = .quoted s) ∨ v = .mark .openParen ∨ v = .mark .closeParen := by
  have hcall {name s : String} (hv : v ∈ callOn name (.quoted s)) :
      (∃ w, v = .word w) ∨ (∃ s, v = .quoted s) ∨ v = .mark .openParen ∨ v = .mark .closeParen := by
    simp only [callOn, List.mem_cons, List.not_mem_nil, or_false] at hv
    rcases hv with rfl | rfl | rfl | rfl <;> simp
  induction n generalizing cs with
  | zero => simp [spellFused] at hv
  | succ n ih =>
    cases cs with
    | nil => simp [spellFused] at hv
    | cons c cs =>
      rw [spellFused] at hv
      split at hv
      · exact (List.mem_append.mp hv).elim hcall ih
      · refine (List.mem_append.mp hv).elim (fun hv => ?_) ih
        split at hv
        · exact .inl ⟨_, List.mem_singleton.mp hv⟩
        · exact hcall hv

/-- Where no row of digits is spelled as a number of its own, a quoted text is a single letter. -/
theorem letter_of_quoted_mem_spellFused {n : Nat} {cs : List Char} {s : String} (hs : .quoted s ∈ spellFused vars n cs)
    (hcs : ∀ c ∈ cs, c.isAlphanum = true) (hnumber : .word "Number" ∉ spellFused vars n cs) :
    ∃ c : Char, c.isAlpha = true ∧ s = c.toString := by
  induction n generalizing cs with
  | zero => simp [spellFused] at hs
  | succ n ih =>
    cases cs with
    | nil => simp [spellFused] at hs
    | cons c cs =>
      rw [spellFused] at hs hnumber
      split at hs
      · rename_i hdigit
        simp [hdigit, callOn] at hnumber
      · rename_i hdigit
        rw [if_neg hdigit, List.mem_append, not_or] at hnumber
        rcases List.mem_append.mp hs with hs | hs
        · refine ⟨c, ?_, ?_⟩
          · simpa [Char.isAlphanum, hdigit] using hcs c List.mem_cons_self
          · split at hs
            · simp at hs
            · simpa [callOn] using hs
        · exact ih hs (fun d hd => hcs d (List.mem_cons_of_mem c hd)) hnumber.2

/-! ### Spelled texts -/

theorem mem_spellNumber_cases {l : Literal} {isImaginary : Bool} {v : Token} (hv : v ∈ spellNumber l isImaginary) :
    (∃ w, v = .word w) ∨ v = .literal l ∨ v ∈ [.mark .openParen, .mark .closeParen, .mark .star] := by
  unfold spellNumber at hv
  rcases List.mem_append.mp hv with hv | hv
  · simp only [callOn, List.mem_cons, List.not_mem_nil, or_false] at hv
    rcases hv with rfl | rfl | rfl | rfl <;> simp
  · split at hv
    · rcases List.mem_pair.mp hv with rfl | rfl <;> simp
    · simp at hv

/-- A token of a spelled text is a word, a literal or a quoted text, a mark of its own, or a mark of the text. -/
theorem mem_spell_cases {v : Token} (hv : v ∈ spell vars afterDot ls) :
    (isLeaf v = true ∧ v ≠ .finish) ∨ v ∈ [.mark .openParen, .mark .closeParen, .mark .star] ∨
      ∃ m, Lexeme.mark m ∈ ls ∧ v = .mark m := by
  induction ls generalizing afterDot with
  | nil => simp [spell] at hv
  | cons l ls ih =>
    have hlater {afterDot : Bool} (hv : v ∈ spell vars afterDot ls) : (isLeaf v = true ∧ v ≠ .finish) ∨
        v ∈ [.mark .openParen, .mark .closeParen, .mark .star] ∨ ∃ m, Lexeme.mark m ∈ l :: ls ∧ v = .mark m := by
      refine (ih hv).imp_right (Or.imp_right ?_)
      rintro ⟨m, hm, heq⟩
      exact ⟨m, List.mem_cons_of_mem l hm, heq⟩
    cases l with
    | word name =>
      rw [spell, List.mem_append] at hv
      refine hv.elim (fun hv => ?_) hlater
      split at hv
      · obtain rfl := List.mem_singleton.mp hv
        exact .inl ⟨rfl, by simp⟩
      · rcases mem_spellFused_cases hv with ⟨w, rfl⟩ | ⟨s, rfl⟩ | rfl | rfl <;> simp [isLeaf]
    | number l isImaginary =>
      rw [spell, List.mem_append] at hv
      refine hv.elim (fun hv => ?_) hlater
      rcases mem_spellNumber_cases hv with ⟨w, rfl⟩ | rfl | hmark
      · exact .inl ⟨rfl, by simp⟩
      · exact .inl ⟨rfl, by simp⟩
      · exact .inr (.inl hmark)
    | mark m =>
      rw [spell, List.mem_cons] at hv
      rcases hv with rfl | hv
      · exact .inr (.inr ⟨m, List.mem_cons_self, rfl⟩)
      · exact hlater hv

theorem finish_not_mem_spell : Token.finish ∉ spell vars afterDot ls := by
  intro hv
  rcases mem_spell_cases hv with ⟨-, hne⟩ | hmark | ⟨m, -, heq⟩
  · exact hne rfl
  · simp at hmark
  · simp at heq

theorem dot_not_mem_spell (hdot : Lexeme.mark .dot ∉ ls) : Token.mark .dot ∉ spell vars afterDot ls := by
  intro hv
  rcases mem_spell_cases hv with ⟨hleaf, -⟩ | hmark | ⟨m, hm, heq⟩
  · simp [isLeaf] at hleaf
  · simp at hmark
  · exact hdot (Token.mark.inj heq ▸ hm)

theorem mem_spell_of_mark {m : Mark} (hm : .mark m ∈ ls) : .mark m ∈ spell vars afterDot ls := by
  obtain ⟨ls₁, ls₂, rfl⟩ := List.append_of_mem hm
  rw [spell_append]
  simp

theorem isKnownWord_function {f : String} (hf : f ∈ Text.functionNames) : isKnownWord vars f.toList = true := by
  have hreserved : Text.isReserved f.toList = true :=
    List.any_eq_true.mpr ⟨f, List.mem_append_left _ hf, by simp⟩
  rw [isKnownWord, hreserved, Bool.true_or]

theorem mem_spell_of_function {f : String} (hf : f ∈ Text.functionNames) (hword : .word f.toList ∈ ls) :
    .word f ∈ spell vars afterDot ls := by
  induction ls generalizing afterDot with
  | nil => simp at hword
  | cons l ls ih =>
    rcases List.mem_cons.mp hword with rfl | hlater
    · simp [spell, isKnownWord_function hf]
    · cases l <;> simp [spell, ih hlater]

/-- A known word that names no function cannot be applied. -/
theorem not_callable_of_isKnownWord {name : List Char} (hknown : isKnownWord vars name = true)
    (hfree : ∀ f ∈ Text.functionNames, name ≠ f.toList) : isCallable (String.ofList name) = false := by
  rw [isKnownWord, Bool.or_eq_true, List.any_eq_true] at hknown
  rcases hknown with hreserved | ⟨c, -, hname⟩
  · obtain ⟨f, hf, hname⟩ := List.any_eq_true.mp hreserved
    obtain rfl : f.toList = name := by simpa using hname
    rw [String.ofList_toList]
    rcases List.mem_append.mp hf with hf | hf
    · exact absurd rfl (hfree f hf)
    · have hconstants : ∀ f ∈ ["pi", "E"], isCallable f = false := by decide
      exact hconstants f hf
  · obtain rfl : name = [c] := by simpa using hname
    simpa using isCallable_letter c

theorem literal_mem_spell {l : Literal} (hl : .literal l ∈ spell vars afterDot ls) :
    ∃ isImaginary, Lexeme.number l isImaginary ∈ ls := by
  induction ls generalizing afterDot with
  | nil => simp [spell] at hl
  | cons x ls ih =>
    have hlater {afterDot : Bool} (hl : .literal l ∈ spell vars afterDot ls) :
        ∃ isImaginary, Lexeme.number l isImaginary ∈ x :: ls :=
      (ih hl).imp fun _ h => List.mem_cons_of_mem x h
    cases x with
    | word name =>
      rw [spell, List.mem_append] at hl
      refine hl.elim (fun hl => ?_) hlater
      split at hl
      · simp at hl
      · have hcases := mem_spellFused_cases hl
        simp at hcases
    | number l' isImaginary =>
      rw [spell, List.mem_append] at hl
      refine hl.elim (fun hl => ⟨isImaginary, ?_⟩) hlater
      obtain rfl : l = l' := by simpa using mem_spellNumber_cases hl
      exact List.mem_cons_self
    | mark m => exact hlater (by simpa [spell] using hl)

/-- Where no row of digits is spelled as a number of its own, a quoted text is a single letter. -/
theorem letter_of_quoted_mem_spell {s : String} (hs : .quoted s ∈ spell vars afterDot ls)
    (hwords : ∀ w, .word w ∈ ls → ∀ c ∈ w, c.isAlphanum = true) (hnumber : .word "Number" ∉ spell vars afterDot ls) :
    ∃ c : Char, c.isAlpha = true ∧ s = c.toString := by
  induction ls generalizing afterDot with
  | nil => simp [spell] at hs
  | cons x ls ih =>
    have hlater {afterDot : Bool} (hs : .quoted s ∈ spell vars afterDot ls)
        (hnumber : .word "Number" ∉ spell vars afterDot ls) : ∃ c : Char, c.isAlpha = true ∧ s = c.toString :=
      ih hs (fun w hw => hwords w (List.mem_cons_of_mem x hw)) hnumber
    cases x with
    | word name =>
      rw [spell, List.mem_append, not_or] at hnumber
      rw [spell, List.mem_append] at hs
      refine hs.elim (fun hs => ?_) fun hs => hlater hs hnumber.2
      split at hs
      · simp at hs
      · rename_i hknown
        rw [if_neg hknown] at hnumber
        exact letter_of_quoted_mem_spellFused hs (hwords name List.mem_cons_self) hnumber.1
    | number l isImaginary =>
      rw [spell, List.mem_append, not_or] at hnumber
      rw [spell, List.mem_append] at hs
      refine hs.elim (fun hs => ?_) fun hs => hlater hs hnumber.2
      have hcases := mem_spellNumber_cases hs
      simp at hcases
    | mark m =>
      rw [spell, List.mem_cons, not_or] at hnumber
      exact hlater (by simpa [spell] using hs) hnumber.2

/-- The leaves of the phrase that tokens are read as are among the tokens. -/
theorem mem_leaves_iff {ts us : List Token} {p : Phrase} (happly : applications? (insertProducts false ts) = some us)
    (hphrase : Phrase.ofTokens? us = some p) (hproper : p.isProper = true) {v : Token} (hleaf : isLeaf v = true)
    (hfinish : v ≠ .finish) : v ∈ p.leaves ↔ v ∈ ts := by
  have hcontent : Phrase.isContent v = true := by
    cases v with
    | mark => simp [isLeaf] at hleaf
    | _ => rfl
  have hmark : v ≠ .mark .star := fun heq => by simp [heq, isLeaf] at hleaf
  have hderives : v ∈ grammarTokens us ↔ v ∈ p.leaves := by
    simpa [Phrase.Rule.leaves] using (Phrase.derives_of_ofTokens? hphrase hproper).mem_iff hcontent
  rw [← hderives, mem_grammarTokens hleaf, mem_applications? happly (isKept_of_isContent hcontent) hfinish, mem_insertProducts hmark]

/-! ### Functions before their parentheses -/

section Applied

variable {rest : List Token} (hrest : rest.IsChain Applied)

include hrest

theorem applied_cons {t : Token} (ht : Unit.isFunction (.token t) = false) : (t :: rest).IsChain Applied :=
  List.isChain_cons.mpr ⟨fun _ _ hfunction => by simp [ht] at hfunction, hrest⟩

theorem applied_callOn (name : String) {t : Token} (ht : Unit.isFunction (.token t) = false) :
    (callOn name t ++ rest).IsChain Applied :=
  List.isChain_cons_cons.mpr ⟨fun _ => rfl, applied_cons (applied_cons (applied_cons hrest rfl) ht) rfl⟩

theorem applied_spellFused (n : Nat) (cs : List Char) : (spellFused vars n cs ++ rest).IsChain Applied := by
  induction n generalizing cs with
  | zero => exact hrest
  | succ n ih =>
    cases cs with
    | nil => exact hrest
    | cons c cs =>
      rw [spellFused]
      split
      · rw [List.append_assoc]
        exact applied_callOn (ih _) "Number" rfl
      · rw [List.append_assoc]
        split
        · exact applied_cons (ih _) (isCallable_letter c)
        · exact applied_callOn (ih _) "letter" rfl

theorem applied_spellNumber (l : Literal) (isImaginary : Bool) : (spellNumber l isImaginary ++ rest).IsChain Applied := by
  unfold spellNumber
  rw [List.append_assoc]
  refine applied_callOn ?_ _ rfl
  cases isImaginary
  · exact hrest
  · exact applied_cons (applied_cons hrest (by decide)) rfl

/-- Where no dot and no function occurs, every word that can be applied stands before its parenthesis. -/
theorem applied_spell (hdot : Lexeme.mark .dot ∉ ls) (hfree : ∀ f ∈ Text.functionNames, Lexeme.word f.toList ∉ ls) :
    (spell vars false ls ++ rest).IsChain Applied := by
  induction ls with
  | nil => exact hrest
  | cons l ls ih =>
    rw [List.mem_cons, not_or] at hdot
    have hlater := ih hdot.2 fun f hf h => hfree f hf (List.mem_cons_of_mem l h)
    cases l with
    | number l isImaginary =>
      rw [spell, List.append_assoc]
      exact applied_spellNumber hlater l isImaginary
    | mark m =>
      have hafter : (m == .dot) = false := by simpa using fun heq : m = .dot => hdot.1 (by rw [heq])
      rw [spell, hafter]
      exact applied_cons hlater rfl
    | word name =>
      rw [spell, List.append_assoc, Bool.false_or]
      split
      · rename_i hknown
        exact applied_cons hlater (not_callable_of_isKnownWord hknown fun f hf heq => hfree f hf (by simp [heq]))
      · exact applied_spellFused hlater _ _

end Applied

end AlgebraTutor.Reader
