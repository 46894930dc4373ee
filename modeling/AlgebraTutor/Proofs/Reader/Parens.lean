import AlgebraTutor.Proofs.Reader.Text
import AlgebraTutor.Proofs.Reader.Spelling
import AlgebraTutor.Proofs.Text.Display

/-!
# The parentheses of a text

A parenthesis is a lexeme of its own, so a text is cut at its parentheses, and the parentheses among its tokens are those
among its characters. What makes a text plain and what spells out its products adds letters and stars only, so whether
parentheses match can be seen from the text as it was written.
-/

namespace AlgebraTutor.Reader

/-! ### Cutting at a parenthesis -/

theorem lexeme?_append_eq {c : Char} (hc : c ∈ closers) {cs : List Char} (hne : cs ≠ [])
    (hslash : c = '/' → cs.getLast? ≠ some '/') (more : List Char) :
    lexeme? (cs ++ c :: more) = (lexeme? cs).map (withRest (c :: more)) := by
  cases hread : lexeme? cs with
  | some found => exact lexeme?_append hc hslash hread more
  | none =>
    simp only [lexeme?, Literal.scan?_append hc, mark?_append hc hne hslash] at hread ⊢
    cases hscan : Literal.scan? cs with
    | some found => simp [hscan] at hread
    | none =>
      cases hmark : mark? cs with
      | some found => simp [hscan, hmark] at hread
      | none =>
        obtain ⟨d, cs, rfl⟩ := List.exists_cons_of_ne_nil hne
        simp only [hscan, hmark, Option.map_none, List.cons_append] at hread ⊢
        split_ifs at hread ⊢
        rfl

/-- In front of a character that continues nothing, a text is cut as if it ended there, if it is cut at all. -/
theorem Lexed.of_append {c : Char} {cs more : List Char} {whole : List Lexeme} (hc : c ∈ closers) (hslash : c ≠ '/')
    (h : Lexed (cs ++ c :: more) whole) : ∃ ls ls', whole = ls ++ ls' ∧ Lexed cs ls ∧ Lexed (c :: more) ls' := by
  generalize htext : cs ++ c :: more = text at h
  induction h generalizing cs with
  | nil => simp at htext
  | @blank d ds ls hblank hrest ih =>
    cases cs with
    | nil => exact ⟨[], ls, rfl, .nil, by rw [← List.nil_append (c :: more), htext]; exact .blank hblank hrest⟩
    | cons e cs =>
      rw [List.cons_append, List.cons.injEq] at htext
      obtain ⟨rfl, htext⟩ := htext
      obtain ⟨ls, ls', rfl, hls, hls'⟩ := ih htext
      exact ⟨ls, ls', rfl, .blank hblank hls, hls'⟩
  | @lexeme ds rest l ls hlexeme hrest ih =>
    cases cs with
    | nil => exact ⟨[], l :: ls, rfl, .nil, by rw [← List.nil_append (c :: more), htext]; exact .lexeme hlexeme hrest⟩
    | cons e cs =>
      rw [← htext, lexeme?_append_eq hc (by simp) (absurd · hslash)] at hlexeme
      obtain ⟨⟨l', rest'⟩, hfound, heq⟩ := Option.map_eq_some_iff.mp hlexeme
      obtain ⟨rfl, rfl⟩ := Prod.mk.inj heq
      obtain ⟨ls, ls', rfl, hls, hls'⟩ := ih rfl
      exact ⟨l' :: ls, ls', rfl, .lexeme hfound hls, hls'⟩

theorem Lexed.of_cons {c : Char} {cs : List Char} {m : Mark} {ls : List Lexeme} (hc : lexeme? (c :: cs) = some (.mark m, cs))
    (hblank : ¬(c = ' ' ∨ c = '\t')) (h : Lexed (c :: cs) ls) : ∃ ls', ls = .mark m :: ls' ∧ Lexed cs ls' := by
  cases h with
  | blank h _ => exact absurd h hblank
  | lexeme hlexeme hrest =>
    obtain ⟨rfl, rfl⟩ := Prod.mk.inj (Option.some.inj (hc.symm.trans hlexeme))
    exact ⟨_, rfl, hrest⟩

/-! ### Parentheses -/

/-- The mark of a parenthesis. -/
def paren? (c : Char) : Option Token :=
  if c = '(' then some (.mark .openParen) else if c = ')' then some (.mark .closeParen) else none

/-- The parentheses of a text, as tokens. -/
def parens (cs : List Char) : List Token :=
  cs.filterMap paren?

theorem parens_append (cs ds : List Char) : parens (cs ++ ds) = parens cs ++ parens ds :=
  List.filterMap_append

theorem parens_cons (c : Char) (cs : List Char) : parens (c :: cs) = parens [c] ++ parens cs :=
  parens_append [c] cs

theorem parens_cons_none {c : Char} (hc : paren? c = none) (cs : List Char) : parens (c :: cs) = parens cs :=
  List.filterMap_cons_none hc

theorem parens_eq_nil {cs : List Char} (h : ∀ c ∈ cs, paren? c = none) : parens cs = [] :=
  List.filterMap_eq_nil_iff.mpr h

theorem eq_of_paren? {c : Char} (h : (paren? c).isSome = true) : c = '(' ∨ c = ')' := by
  unfold paren? at h
  split_ifs at h with hopen hclose
  · exact .inl hopen
  · exact .inr hclose
  · simp at h

theorem markOf?_eq_paren {c : Char} :
    (markOf? c = some .openParen → c = '(') ∧ (markOf? c = some .closeParen → c = ')') := by
  grind [markOf?]

theorem eq_of_mark?_paren {cs rest : List Char} :
    (mark? cs = some (.openParen, rest) → cs = '(' :: rest) ∧ (mark? cs = some (.closeParen, rest) → cs = ')' :: rest) := by
  fun_cases mark? cs with
  | case4 c cs =>
    simp only [Option.map_eq_some_iff, Prod.mk.injEq, ↓existsAndEq, true_and, List.cons.injEq]
    exact ⟨And.imp_left markOf?_eq_paren.1, And.imp_left markOf?_eq_paren.2⟩
  | _ => simp

/-- What is cut from a text without parentheses is no parenthesis. -/
theorem not_paren_of_lexeme? {cs rest : List Char} {l : Lexeme} (hcs : ∀ c ∈ cs, paren? c = none)
    (h : lexeme? cs = some (l, rest)) : l ≠ .mark .openParen ∧ l ≠ .mark .closeParen ∧ parens rest = [] := by
  obtain ⟨piece, -, heq⟩ := shortened_lexeme h
  refine ⟨?_, ?_, parens_eq_nil fun c hc => hcs c (heq ▸ List.mem_append_right piece hc)⟩
  · rintro rfl
    have hopen := eq_of_mark?_paren.1 (mark?_of_lexeme? h)
    exact absurd (hcs '(' (hopen ▸ List.mem_cons_self)) (by decide)
  · rintro rfl
    have hclose := eq_of_mark?_paren.2 (mark?_of_lexeme? h)
    exact absurd (hcs ')' (hclose ▸ List.mem_cons_self)) (by decide)

/-- A parenthesis is a lexeme of its own, and no other lexeme holds one. -/
theorem parens_of_lexeme? {cs rest : List Char} {l : Lexeme} (h : lexeme? cs = some (l, rest)) :
    (l = .mark .openParen ∧ cs = '(' :: rest) ∨ (l = .mark .closeParen ∧ cs = ')' :: rest) ∨
      (l ≠ .mark .openParen ∧ l ≠ .mark .closeParen ∧ parens cs = parens rest) := by
  have hsplit := List.takeWhile_append_dropWhile (p := fun c => (paren? c).isNone) (l := cs)
  have hfront : ∀ c ∈ cs.takeWhile fun c => (paren? c).isNone, paren? c = none :=
    fun c hc => by simpa using List.mem_takeWhile_imp hc
  have htail := List.head?_dropWhile_not (fun c => (paren? c).isNone) cs
  generalize cs.takeWhile (fun c => (paren? c).isNone) = front at hsplit hfront
  generalize cs.dropWhile (fun c => (paren? c).isNone) = tail at hsplit htail
  subst hsplit
  by_cases hne : front = []
  · subst hne
    cases tail with
    | nil => simpa using (shortened_lexeme h).length_lt
    | cons c more =>
      rcases eq_of_paren? (by simpa using htail) with rfl | rfl
      · obtain ⟨rfl, rfl⟩ := Prod.mk.inj (Option.some.inj h)
        exact .inl ⟨rfl, rfl⟩
      · obtain ⟨rfl, rfl⟩ := Prod.mk.inj (Option.some.inj h)
        exact .inr (.inl ⟨rfl, rfl⟩)
  · right; right
    cases tail with
    | nil =>
      rw [List.append_nil] at h ⊢
      obtain ⟨hopen, hclose, hrest⟩ := not_paren_of_lexeme? hfront h
      exact ⟨hopen, hclose, (parens_eq_nil hfront).trans hrest.symm⟩
    | cons c more =>
      have hc := eq_of_paren? (c := c) (by simpa using htail)
      have hcloser : c ∈ closers := by rcases hc with rfl | rfl <;> decide
      have hslash : c ≠ '/' := by rcases hc with rfl | rfl <;> decide
      rw [lexeme?_append_eq hcloser hne (absurd · hslash)] at h
      obtain ⟨⟨l', rest'⟩, hfound, heq⟩ := Option.map_eq_some_iff.mp h
      obtain ⟨rfl, rfl⟩ := Prod.mk.inj heq
      obtain ⟨hopen, hclose, hrest⟩ := not_paren_of_lexeme? hfront hfound
      exact ⟨hopen, hclose, by rw [parens_append, parens_append, parens_eq_nil hfront, hrest]⟩

/-! ### The parentheses of the tokens -/

section Spell

variable {vars : List Char}

theorem closes_callOn (depth : Nat) {name : String} {t : Token} (ht : isLeaf t = true) (ts : List Token) :
    closes depth (callOn name t ++ ts) = closes depth ts := by
  have hmark (m : Mark) : t ≠ .mark m := by
    rintro rfl
    simp [isLeaf] at ht
  change closes (depth + 1) (t :: .mark .closeParen :: ts) = closes depth ts
  rw [closes_cons (hmark _) (hmark _)]
  rfl

theorem closes_spellFused (depth n : Nat) (cs : List Char) (ts : List Token) :
    closes depth (spellFused vars n cs ++ ts) = closes depth ts := by
  induction n generalizing cs with
  | zero => rfl
  | succ n ih =>
    cases cs with
    | nil => rfl
    | cons c cs =>
      rw [spellFused]
      split
      · rw [List.append_assoc, closes_callOn depth rfl, ih]
      · rw [List.append_assoc]
        split
        · exact (closes_cons (by simp) (by simp) _).trans (ih cs)
        · rw [closes_callOn depth rfl, ih]

theorem closes_spellNumber (depth : Nat) (l : Literal) (isImaginary : Bool) (ts : List Token) :
    closes depth (spellNumber l isImaginary ++ ts) = closes depth ts := by
  unfold spellNumber
  rw [List.append_assoc, closes_callOn depth rfl]
  cases isImaginary with
  | false => rfl
  | true => exact (closes_cons (by simp) (by simp) _).trans (closes_cons (by simp) (by simp) ts)

/-- The parentheses of the tokens are those of the characters, but for the calls that numbers and letters are spelled as. -/
theorem Lexed.closes_spell {cs : List Char} {ls : List Lexeme} (h : Lexed cs ls) (depth : Nat) (afterDot : Bool) :
    closes depth (spell vars afterDot ls) = closes depth (parens cs) := by
  induction h generalizing depth afterDot with
  | nil => rfl
  | blank hblank _ ih =>
    rw [parens_cons_none (by rcases hblank with rfl | rfl <;> rfl), ih]
  | @lexeme cs rest l ls hlexeme _ ih =>
    rcases parens_of_lexeme? hlexeme with ⟨rfl, rfl⟩ | ⟨rfl, rfl⟩ | ⟨hopen, hclose, heq⟩
    · exact ih (depth + 1) _
    · cases depth with
      | zero => rfl
      | succ depth => exact ih depth _
    · rw [heq]
      cases l with
      | word name =>
        rw [spell]
        split
        · exact (closes_cons (by simp) (by simp) _).trans (ih depth _)
        · rw [closes_spellFused, ih]
      | number l isImaginary => rw [spell, closes_spellNumber, ih]
      | mark m => exact (closes_cons (by simpa using hopen) (by simpa using hclose) _).trans (ih depth _)

end Spell

/-! ### The parentheses of a plain text -/

theorem paren?_of_isAlpha {c : Char} (hc : c.isAlpha = true) : paren? c = none := by
  by_contra h
  rcases eq_of_paren? (Option.isSome_iff_ne_none.mpr h) with rfl | rfl <;> simp at hc

theorem parens_spellProducts (vars cs : List Char) : parens (Text.spellProducts vars cs) = parens cs := by
  have hletters {w : List Char} (hw : ∀ c ∈ w, c.isAlpha = true) : parens w = [] :=
    parens_eq_nil fun c hc => paren?_of_isAlpha (hw c hc)
  have hspelled {w : List Char} (hw : ∀ c ∈ w, c.isAlpha = true) : parens (Text.spellRun w) = [] := by
    fun_induction Text.spellRun w with
    | case1 => rfl
    | case2 c => exact hletters hw
    | case3 c d cs ih =>
      rw [List.forall_mem_cons] at hw
      rw [parens_cons_none (paren?_of_isAlpha hw.1), parens_cons_none rfl, ih hw.2]
  induction cs using Text.letters_induction with
  | nil => rfl
  | other c cs hc ih =>
    rw [Text.spellProducts_other hc, parens_cons, ih, ← parens_cons]
  | run w rest hne hw hrest ih =>
    rw [Text.spellProducts_run hne hw hrest, parens_append, parens_append, ih, hletters hw, Text.spelledRun]
    split
    · rw [hspelled hw]
    · rw [hletters hw]

theorem parens_lowerPi (afterLetter : Bool) (cs : List Char) : parens (Text.lowerPi afterLetter cs) = parens cs := by
  fun_induction Text.lowerPi afterLetter cs with
  | case1 => rfl
  | case2 afterLetter i cs hpi ih =>
    have hi : i = 'I' ∨ i = 'i' := by
      simp only [Bool.and_eq_true, Bool.or_eq_true, beq_iff_eq] at hpi
      exact hpi.1.2
    rw [parens_cons_none rfl, parens_cons_none rfl, ih, parens_cons_none rfl, parens_cons_none]
    rcases hi with rfl | rfl <;> rfl
  | case3 afterLetter i cs hpi ih => rw [parens_cons_none rfl, ih, parens_cons_none (c := 'P') rfl]
  | case4 afterLetter d cs hp ih => rw [parens_cons, ih, ← parens_cons]

theorem parens_setOffLetters (cs : List Char) : parens (Text.setOffLetters cs) = parens cs := by
  fun_induction Text.setOffLetters cs with
  | case1 => rfl
  | case2 d l cs hset ih =>
    rw [parens_cons, parens_cons_none (c := '*') rfl, parens_cons l, ih, ← parens_cons l, ← parens_cons d]
  | case3 d l cs hset ih => rw [parens_cons, ih, ← parens_cons]
  | case4 c => rfl

end AlgebraTutor.Reader
