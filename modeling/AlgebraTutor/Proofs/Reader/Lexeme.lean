import AlgebraTutor.Proofs.Text.Display
import AlgebraTutor.Reader.Token

/-!
# Cutting a text into lexemes

A text is cut into lexemes one after another, and where one ends does not depend on what was cut off before it. `Lexed`
says so as a relation, `lexemes?_eq_some_iff` ties it to the function that computes the lexemes, and `Lexed.append` is
what the rest of the theory uses: behind a character that continues no lexeme, a text is cut as if it stood alone.
-/

namespace AlgebraTutor.Reader

/-- A text and the lexemes that it is cut into, one lexeme or one blank at a time. -/
inductive Lexed : List Char → List Lexeme → Prop
  | nil : Lexed [] []
  | blank {c : Char} {cs : List Char} {ls : List Lexeme} (hblank : c = ' ' ∨ c = '\t') (hrest : Lexed cs ls) :
    Lexed (c :: cs) ls
  | lexeme {cs rest : List Char} {l : Lexeme} {ls : List Lexeme} (hlexeme : lexeme? cs = some (l, rest))
    (hrest : Lexed rest ls) : Lexed cs (l :: ls)

/-! ### What a lexeme takes off a text

Every reading function takes a non-empty piece off the front of a text. -/

/-- A text is a non-empty piece followed by the rest. -/
def Shortened (cs rest : List Char) : Prop :=
  ∃ front, front ≠ [] ∧ cs = front ++ rest

theorem Shortened.length_lt {cs rest : List Char} (h : Shortened cs rest) : rest.length < cs.length := by
  obtain ⟨front, hfront, rfl⟩ := h
  have := List.length_pos_iff.mpr hfront
  simp only [List.length_append]
  omega

theorem Shortened.append_left {front cs rest : List Char} (h : Shortened cs rest) : Shortened (front ++ cs) rest := by
  obtain ⟨piece, hpiece, rfl⟩ := h
  exact ⟨front ++ piece, by simp [hpiece], by simp⟩

theorem Shortened.trans {cs mid rest : List Char} (hfirst : Shortened cs mid) (hsecond : Shortened mid rest) :
    Shortened cs rest := by
  obtain ⟨front, -, rfl⟩ := hfirst
  exact hsecond.append_left

theorem Shortened.cons {c : Char} {cs rest : List Char} (h : cs = rest ∨ Shortened cs rest) : Shortened (c :: cs) rest := by
  rcases h with rfl | h
  · exact ⟨[c], by simp, rfl⟩
  · exact @append_left [c] _ _ h

namespace Literal

theorem spanDigits_append_eq (isDigit : Char → Bool) (cs : List Char) :
    (spanDigits isDigit cs).1 ++ (spanDigits isDigit cs).2 = cs := by
  simp [spanDigits]

theorem shortened_spanDigits {isDigit : Char → Bool} {cs : List Char} (h : (spanDigits isDigit cs).1 ≠ []) :
    Shortened cs (spanDigits isDigit cs).2 :=
  ⟨_, h, (spanDigits_append_eq isDigit cs).symm⟩

theorem exponentSign_suffix (cs : List Char) : (exponentSign cs).2 = cs ∨ Shortened cs (exponentSign cs).2 := by
  unfold exponentSign
  split
  · exact .inr ⟨['-'], by simp, rfl⟩
  · exact .inr ⟨['+'], by simp, rfl⟩
  · exact .inl rfl

theorem shortened_exponent {cs ds rest : List Char} {isNegative : Bool}
    (hread : exponent? cs = some (isNegative, ds, rest)) : Shortened cs rest := by
  cases cs with
  | nil => simp [exponent?] at hread
  | cons c cs =>
    simp only [exponent?] at hread
    split at hread
    · split at hread
      · simp at hread
      · rename_i hds
        simp only [Option.some.injEq, Prod.mk.injEq] at hread
        obtain ⟨-, -, rfl⟩ := hread
        have hspan : Shortened (exponentSign cs).2 (spanDigits Char.isDigit (exponentSign cs).2).2 :=
          shortened_spanDigits (by simpa using hds)
        refine Shortened.cons (.inr ?_)
        rcases exponentSign_suffix cs with heq | hsign
        · rwa [heq] at hspan ⊢
        · exact hsign.trans hspan
    · simp at hread

theorem decimalWith_suffix (whole fraction cs : List Char) :
    (decimalWith whole fraction cs).2 = cs ∨ Shortened cs (decimalWith whole fraction cs).2 := by
  unfold decimalWith
  split
  · rename_i hread
    exact .inr (shortened_exponent hread)
  · exact .inl rfl

theorem shortened_decimal {cs rest : List Char} {l : Literal} (hread : decimal? cs = some (l, rest)) :
    Shortened cs rest := by
  simp only [decimal?] at hread
  have hcs := spanDigits_append_eq Char.isDigit cs
  split at hread
  · rename_i r hpoint
    split at hread
    · simp at hread
    · simp only [Option.some.injEq] at hread
      have hr := spanDigits_append_eq Char.isDigit r
      have hsuffix := decimalWith_suffix (spanDigits Char.isDigit cs).1 (spanDigits Char.isDigit r).1
        (spanDigits Char.isDigit r).2
      rw [hread] at hsuffix
      rw [← hcs, hpoint]
      refine Shortened.append_left (Shortened.cons ?_)
      rw [← hr]
      rcases hsuffix with heq | hshort
      · change rest = _ at heq
        by_cases hnil : (spanDigits Char.isDigit r).1 = []
        · exact .inl (by rw [hnil, heq]; rfl)
        · exact .inr ⟨_, hnil, by rw [heq]⟩
      · exact .inr hshort.append_left
  · split at hread
    · simp at hread
    · simp only [Option.map_eq_some_iff] at hread
      obtain ⟨⟨isNegative, ds, r⟩, hexponent, heq⟩ := hread
      simp only [Prod.mk.injEq] at heq
      obtain ⟨-, rfl⟩ := heq
      rw [← hcs]
      exact (shortened_exponent hexponent).append_left

theorem shortened_based {cs rest : List Char} {l : Literal} (hread : based? cs = some (l, rest)) :
    Shortened cs rest := by
  unfold based? at hread
  split at hread
  · split at hread
    · rename_i cs _ _ isDigit _
      have hds : (spanDigits isDigit cs).1 ≠ [] := fun hnil => by simp [hnil] at hread
      simp only [List.isEmpty_iff, hds, if_false, Option.some.injEq, Prod.mk.injEq] at hread
      obtain ⟨-, rfl⟩ := hread
      exact Shortened.cons (.inr (Shortened.cons (.inr (shortened_spanDigits hds))))
    · simp at hread
  · simp at hread

theorem shortened_integer {cs rest : List Char} {l : Literal} (hread : integer? cs = some (l, rest)) :
    Shortened cs rest := by
  unfold integer? at hread
  split at hread
  · simp only [Option.some.injEq, Prod.mk.injEq] at hread
    obtain ⟨-, rfl⟩ := hread
    exact shortened_spanDigits (by simp [spanDigits])
  · have hds : (spanDigits Char.isDigit cs).1 ≠ [] := fun hnil => by simp [hnil] at hread
    simp only [List.isEmpty_iff, hds, if_false, Option.some.injEq, Prod.mk.injEq] at hread
    obtain ⟨-, rfl⟩ := hread
    exact shortened_spanDigits hds

theorem shortened_imaginaryMark {found : Literal × List Char} {rest : List Char} {l : Literal}
    (hread : imaginaryMark? found = some (l, rest)) : Shortened found.2 rest := by
  unfold imaginaryMark? at hread
  split at hread
  · rename_i heq
    split at hread
    · simp only [Option.some.injEq, Prod.mk.injEq] at hread
      obtain ⟨-, rfl⟩ := hread
      exact heq ▸ Shortened.cons (.inl rfl)
    · simp at hread
  · simp at hread

theorem shortened_allDigits {cs rest : List Char} {l : Literal} (hread : allDigits? cs = some (l, rest)) :
    Shortened cs rest := by
  simp only [allDigits?] at hread
  split at hread
  · simp at hread
  · rename_i hds
    simp only [Option.some.injEq, Prod.mk.injEq] at hread
    obtain ⟨-, rfl⟩ := hread
    exact shortened_spanDigits (by simpa using hds)

theorem shortened_scan {cs rest : List Char} {l : Literal} {isImaginary : Bool}
    (hread : scan? cs = some (l, isImaginary, rest)) : Shortened cs rest := by
  unfold scan? at hread
  split at hread
  · rename_i l' rest' hdigits
    simp only [Option.some.injEq, Prod.mk.injEq] at hread
    obtain ⟨-, -, rfl⟩ := hread
    obtain ⟨found, hfound, hmark⟩ := Option.bind_eq_some_iff.mp hdigits
    exact Shortened.trans (shortened_allDigits hfound) (shortened_imaginaryMark hmark)
  · split at hread
    · rename_i found hfound
      split at hread
      · rename_i hmark
        simp only [Option.some.injEq, Prod.mk.injEq] at hread
        obtain ⟨-, -, rfl⟩ := hread
        exact Shortened.trans (shortened_decimal hfound) (shortened_imaginaryMark hmark)
      · simp only [Option.some.injEq, Prod.mk.injEq] at hread
        obtain ⟨-, -, rfl⟩ := hread
        exact shortened_decimal hfound
    · split at hread
      · rename_i hbased
        simp only [Option.some.injEq, Prod.mk.injEq] at hread
        obtain ⟨-, -, rfl⟩ := hread
        exact shortened_based hbased
      · obtain ⟨⟨l', rest'⟩, hinteger, heq⟩ := Option.map_eq_some_iff.mp hread
        simp only [Prod.mk.injEq] at heq
        obtain ⟨-, -, rfl⟩ := heq
        exact shortened_integer hinteger

end Literal

theorem shortened_mark {cs rest : List Char} {m : Mark} (hread : mark? cs = some (m, rest)) : Shortened cs rest := by
  unfold mark? at hread
  split at hread
  case h_4 =>
    obtain ⟨m', -, heq⟩ := Option.map_eq_some_iff.mp hread
    simp only [Prod.mk.injEq] at heq
    obtain ⟨-, rfl⟩ := heq
    exact Shortened.cons (.inl rfl)
  case h_5 => simp at hread
  all_goals
    simp only [Option.some.injEq, Prod.mk.injEq] at hread
    obtain ⟨-, rfl⟩ := hread
  case h_1 | h_2 => exact Shortened.cons (.inr (Shortened.cons (.inl rfl)))
  case h_3 => exact Shortened.cons (.inr (Shortened.cons (.inr (Shortened.cons (.inl rfl)))))

theorem shortened_lexeme {cs rest : List Char} {l : Lexeme} (hread : lexeme? cs = some (l, rest)) :
    Shortened cs rest := by
  unfold lexeme? at hread
  split at hread
  · rename_i hscan
    simp only [Option.some.injEq, Prod.mk.injEq] at hread
    obtain ⟨-, rfl⟩ := hread
    exact Literal.shortened_scan hscan
  · split at hread
    · rename_i hmark
      simp only [Option.some.injEq, Prod.mk.injEq] at hread
      obtain ⟨-, rfl⟩ := hread
      exact shortened_mark hmark
    · cases cs with
      | nil => simp at hread
      | cons c cs =>
        simp only at hread
        split at hread
        · rename_i halpha
          simp only [Option.some.injEq, Prod.mk.injEq] at hread
          obtain ⟨-, rfl⟩ := hread
          refine ⟨(c :: cs).takeWhile Char.isAlphanum, ?_, by simp⟩
          simp [Char.isAlphanum, halpha]
        · simp at hread

/-! ### The relation and the function -/

theorem lexed_of_lexemesFrom {n : Nat} {cs : List Char} {ls : List Lexeme} (h : lexemesFrom n cs = some ls) :
    Lexed cs ls := by
  induction n generalizing cs ls with
  | zero =>
    cases cs with
    | nil =>
      obtain rfl : [] = ls := by simpa [lexemesFrom] using h
      exact .nil
    | cons c cs => simp [lexemesFrom] at h
  | succ n ih =>
    cases cs with
    | nil =>
      obtain rfl : [] = ls := by simpa [lexemesFrom] using h
      exact .nil
    | cons c cs =>
      simp only [lexemesFrom] at h
      split at h
      · rename_i hblank
        exact .blank (by simpa using hblank) (ih h)
      · split at h
        · rename_i l rest hlexeme
          obtain ⟨ls', hrest, rfl⟩ := Option.map_eq_some_iff.mp h
          exact .lexeme hlexeme (ih hrest)
        · simp at h

theorem Lexed.isAlphanum_of_word {cs w : List Char} {ls : List Lexeme} (h : Lexed cs ls) (hw : .word w ∈ ls) {c : Char}
    (hc : c ∈ w) : c.isAlphanum = true := by
  induction h with
  | nil => simp at hw
  | blank _ _ ih => exact ih hw
  | @lexeme cs rest l ls hlexeme _ ih =>
    rcases List.mem_cons.mp hw with rfl | hlater
    · unfold lexeme? at hlexeme
      split at hlexeme
      · simp at hlexeme
      · split at hlexeme
        · simp at hlexeme
        · split at hlexeme
          · split at hlexeme
            · simp only [Option.some.injEq, Prod.mk.injEq, Lexeme.word.injEq] at hlexeme
              obtain ⟨rfl, -⟩ := hlexeme
              exact List.all_eq_true.mp List.all_takeWhile c hc
            · simp at hlexeme
          · simp at hlexeme
    · exact ih hlater

theorem lexeme?_eq_none_of_blank {c : Char} (cs : List Char) (hblank : c = ' ' ∨ c = '\t') :
    lexeme? (c :: cs) = none := by
  rcases hblank with rfl | rfl <;> rfl

theorem Lexed.lexemesFrom_eq {n : Nat} {cs : List Char} {ls : List Lexeme} (h : Lexed cs ls) (hn : cs.length ≤ n) :
    lexemesFrom n cs = some ls := by
  induction h generalizing n with
  | nil => cases n <;> rfl
  | @blank c cs ls hblank _ ih =>
    cases n with
    | zero => simp at hn
    | succ n =>
      have hc : (c == ' ' || c == '\t') = true := by simpa using hblank
      simp only [lexemesFrom, hc, if_true]
      exact ih (by simpa using hn)
  | @lexeme cs rest l ls hlexeme _ ih =>
    have hlt := (shortened_lexeme hlexeme).length_lt
    cases cs with
    | nil => simp at hlt
    | cons c cs =>
      cases n with
      | zero => simp at hn
      | succ n =>
        have hc : (c == ' ' || c == '\t') = false := by
          rw [Bool.eq_false_iff]
          intro hblank
          rw [lexeme?_eq_none_of_blank cs (by simpa using hblank)] at hlexeme
          simp at hlexeme
        simp only [lexemesFrom, hc, hlexeme, Bool.false_eq_true, if_false]
        rw [ih (by simp only [List.length_cons] at hlt hn; omega)]
        rfl

theorem lexemes?_eq_some_iff {cs : List Char} {ls : List Lexeme} : lexemes? cs = some ls ↔ Lexed cs ls :=
  ⟨lexed_of_lexemesFrom, fun h => h.lexemesFrom_eq (Nat.le_refl _)⟩

/-! ### What follows a text

A character that can continue no number, no word and, unless it is a slash behind a slash, no mark. -/

/-- The characters that end whatever stands before them. -/
def closers : List Char := [' ', ')', ',', '^', '(', '/']

/-- A reading of a text that goes on with more, where the reading of the text alone is known. -/
def withRest {α : Type} (more : List Char) (found : α × List Char) : α × List Char :=
  (found.1, found.2 ++ more)

theorem takeWhile_append_cons {p : Char → Bool} {c : Char} (hc : p c = false) (cs more : List Char) :
    (cs ++ c :: more).takeWhile p = cs.takeWhile p := by
  induction cs with
  | nil => simp [hc]
  | cons d cs ih => simp [List.takeWhile_cons, ih]

theorem dropWhile_append_cons {p : Char → Bool} {c : Char} (hc : p c = false) (cs more : List Char) :
    (cs ++ c :: more).dropWhile p = cs.dropWhile p ++ c :: more := by
  induction cs with
  | nil => simp [hc]
  | cons d cs ih =>
    by_cases hd : p d
    · simp [hd, ih]
    · simp [hd]

namespace Literal

theorem spanDigits_append {isDigit : Char → Bool} {c : Char} (hc : isDigit c = false) (cs more : List Char) :
    spanDigits isDigit (cs ++ c :: more) = withRest (c :: more) (spanDigits isDigit cs) := by
  rw [spanDigits, takeWhile_append_cons hc, dropWhile_append_cons hc]
  rfl

variable {c : Char} (hc : c ∈ closers)

include hc

theorem isDigit_closer : c.isDigit = false :=
  (by decide : ∀ c ∈ closers, c.isDigit = false) c hc

theorem exponentSign_append (cs more : List Char) :
    exponentSign (cs ++ c :: more) = withRest (c :: more) (exponentSign cs) := by
  have hminus : c ≠ '-' := (by decide : ∀ c ∈ closers, c ≠ '-') c hc
  have hplus : c ≠ '+' := (by decide : ∀ c ∈ closers, c ≠ '+') c hc
  cases cs with
  | nil =>
    rw [List.nil_append, exponentSign]
    · rfl
    · simp [hminus]
    · simp [hplus]
  | cons d cs =>
    unfold exponentSign
    split <;> simp_all [withRest]

theorem exponent?_append (cs more : List Char) :
    exponent? (cs ++ c :: more) = (exponent? cs).map fun found => (found.1, withRest (c :: more) found.2) := by
  cases cs with
  | nil =>
    have he : (c == 'e' || c == 'E') = false := (by decide : ∀ c ∈ closers, (c == 'e' || c == 'E') = false) c hc
    simp [exponent?, he]
  | cons d cs =>
    simp only [List.cons_append, exponent?, exponentSign_append hc, spanDigits_append (isDigit_closer hc), withRest]
    split
    · split <;> rfl
    · rfl

theorem decimalWith_append (whole fraction cs more : List Char) :
    decimalWith whole fraction (cs ++ c :: more) = withRest (c :: more) (decimalWith whole fraction cs) := by
  simp only [decimalWith, exponent?_append hc]
  cases exponent? cs <;> rfl

theorem decimal?_append (cs more : List Char) :
    decimal? (cs ++ c :: more) = (decimal? cs).map (withRest (c :: more)) := by
  have hpoint : c ≠ '.' := (by decide : ∀ c ∈ closers, c ≠ '.') c hc
  have hexponent := exponent?_append hc
  simp only [decimal?, spanDigits_append (isDigit_closer hc), withRest]
  cases (spanDigits Char.isDigit cs).2 with
  | nil =>
    have hnone : exponent? (c :: more) = none := hexponent [] more
    simp only [List.nil_append, List.cons.injEq, hpoint, false_and, imp_self, implies_true, hnone]
    split <;> rfl
  | cons d rest =>
    by_cases hd : d = '.'
    · subst hd
      simp only [List.cons_append, spanDigits_append (isDigit_closer hc), withRest, decimalWith_append hc]
      split <;> rfl
    · have hrest : exponent? (d :: (rest ++ c :: more)) = _ := hexponent (d :: rest) more
      simp only [List.cons_append, List.cons.injEq, hd, false_and, imp_self, implies_true, hrest]
      split
      · rfl
      · cases exponent? (d :: rest) <;> rfl

theorem allDigits?_append (cs more : List Char) :
    allDigits? (cs ++ c :: more) = (allDigits? cs).map (withRest (c :: more)) := by
  simp only [allDigits?, spanDigits_append (isDigit_closer hc), withRest]
  split <;> rfl

theorem imaginaryMark?_append (found : Literal × List Char) (more : List Char) :
    imaginaryMark? (withRest (c :: more) found) = (imaginaryMark? found).map (withRest (c :: more)) := by
  obtain ⟨l, rest⟩ := found
  cases rest with
  | nil =>
    have hj : (c == 'j' || c == 'J') = false := (by decide : ∀ c ∈ closers, (c == 'j' || c == 'J') = false) c hc
    simp [imaginaryMark?, withRest, hj]
  | cons d rest =>
    simp only [imaginaryMark?, withRest, List.cons_append]
    split <;> rfl

theorem base?_closer : base? c = none :=
  (by decide : ∀ c ∈ closers, c ≠ 'x' ∧ c ≠ 'X' ∧ c ≠ 'b' ∧ c ≠ 'B' ∧ c ≠ 'o' ∧ c ≠ 'O') c hc |> fun h => by
    simp [base?, h]

theorem isDigit_of_base? {d : Char} {base : Nat} {isDigit : Char → Bool} (hd : base? d = some (base, isDigit)) :
    isDigit c = false := by
  simp only [base?] at hd
  split at hd
  · simp only [Option.some.injEq, Prod.mk.injEq] at hd
    exact hd.2 ▸ (by decide : ∀ c ∈ closers, Text.isHexDigit c = false) c hc
  · split at hd
    · simp only [Option.some.injEq, Prod.mk.injEq] at hd
      exact hd.2 ▸ (by decide : ∀ c ∈ closers, Text.isBinaryDigit c = false) c hc
    · split at hd
      · simp only [Option.some.injEq, Prod.mk.injEq] at hd
        exact hd.2 ▸ (by decide : ∀ c ∈ closers, Text.isOctalDigit c = false) c hc
      · simp at hd

theorem based?_append (cs more : List Char) :
    based? (cs ++ c :: more) = (based? cs).map (withRest (c :: more)) := by
  have hzero : c ≠ '0' := (by decide : ∀ c ∈ closers, c ≠ '0') c hc
  cases cs with
  | nil => simp [based?, hzero]
  | cons d cs =>
    by_cases hd : d = '0'
    · subst hd
      cases cs with
      | nil => simp [based?, base?_closer hc]
      | cons e cs =>
        simp only [List.cons_append, based?]
        cases hbase : base? e with
        | none => rfl
        | some found =>
          simp only [spanDigits_append (isDigit_of_base? hc hbase), withRest]
          split <;> rfl
    · simp [based?, hd]

theorem integer?_append (cs more : List Char) :
    integer? (cs ++ c :: more) = (integer? cs).map (withRest (c :: more)) := by
  have hzero : c ≠ '0' := (by decide : ∀ c ∈ closers, c ≠ '0') c hc
  have hspan := spanDigits_append (isDigit_closer hc)
  cases cs with
  | nil =>
    have hnil : spanDigits Char.isDigit (c :: more) = ([], c :: more) := hspan [] more
    simp only [List.nil_append, integer?, List.cons.injEq, hzero, false_and, imp_self, implies_true, hnil]
    rfl
  | cons d cs =>
    by_cases hd : d = '0'
    · subst hd
      have hspan' := @spanDigits_append (· == '0') c (by simpa using hzero) ('0' :: cs) more
      rw [List.cons_append] at hspan'
      simp only [List.cons_append, integer?, hspan', withRest]
      rfl
    · have hrest := hspan (d :: cs) more
      rw [List.cons_append] at hrest
      simp only [List.cons_append, integer?, List.cons.injEq, hd, false_and, imp_self, implies_true, hrest, withRest]
      split <;> rfl

theorem scan?_append (cs more : List Char) :
    scan? (cs ++ c :: more) = (scan? cs).map fun found => (found.1, withRest (c :: more) found.2) := by
  have hdigits : (allDigits? (cs ++ c :: more)).bind imaginaryMark? =
      ((allDigits? cs).bind imaginaryMark?).map (withRest (c :: more)) := by
    rw [allDigits?_append hc]
    cases allDigits? cs with
    | none => rfl
    | some found => exact imaginaryMark?_append hc found more
  simp only [scan?, hdigits, decimal?_append hc, based?_append hc, integer?_append hc]
  cases (allDigits? cs).bind imaginaryMark? with
  | some found => rfl
  | none =>
    cases decimal? cs with
    | some found =>
      simp only [Option.map_none, Option.map_some, imaginaryMark?_append hc]
      cases imaginaryMark? found <;> rfl
    | none =>
      cases based? cs with
      | some found => rfl
      | none => cases integer? cs <;> rfl

end Literal

theorem mark?_append {c : Char} (hc : c ∈ closers) {cs : List Char} (hne : cs ≠ [])
    (hslash : c = '/' → cs.getLast? ≠ some '/') (more : List Char) :
    mark? (cs ++ c :: more) = (mark? cs).map (withRest (c :: more)) := by
  have hstar : c ≠ '*' := (by decide : ∀ c ∈ closers, c ≠ '*') c hc
  have hpoint : c ≠ '.' := (by decide : ∀ c ∈ closers, c ≠ '.') c hc
  fun_cases mark? cs with
  | case1 cs => rfl
  | case2 cs => rfl
  | case3 cs => rfl
  | case4 d cs hstars hslashes hpoints =>
    rw [List.cons_append, mark?]
    · cases markOf? d <;> rfl
    · intro rest hd hrest
      cases cs with
      | nil => exact hstar (by simpa using congrArg List.head? hrest)
      | cons e cs =>
        obtain ⟨rfl, -⟩ : e = '*' ∧ _ := by simpa using hrest
        exact hstars cs hd rfl
    · intro rest hd hrest
      cases cs with
      | nil =>
        obtain ⟨rfl, -⟩ : c = '/' ∧ _ := by simpa using hrest
        exact hslash rfl (by simp [hd])
      | cons e cs =>
        obtain ⟨rfl, -⟩ : e = '/' ∧ _ := by simpa using hrest
        exact hslashes cs hd rfl
    · intro rest hd hrest
      match cs with
      | [] => exact hpoint (by simpa using congrArg List.head? hrest)
      | [e] =>
        obtain ⟨-, h, -⟩ : e = '.' ∧ c = '.' ∧ _ := by simpa using hrest
        exact hpoint h
      | e :: f :: cs =>
        obtain ⟨rfl, rfl, -⟩ : e = '.' ∧ f = '.' ∧ _ := by simpa using hrest
        exact hpoints cs hd rfl
  | case5 => simp at hne

theorem lexeme?_append {c : Char} (hc : c ∈ closers) {cs rest : List Char} {l : Lexeme}
    (hslash : c = '/' → cs.getLast? ≠ some '/') (hread : lexeme? cs = some (l, rest)) (more : List Char) :
    lexeme? (cs ++ c :: more) = some (l, rest ++ c :: more) := by
  have hne : cs ≠ [] := fun hnil => by simpa [hnil] using (shortened_lexeme hread).length_lt
  have halnum : c.isAlphanum = false := (by decide : ∀ c ∈ closers, c.isAlphanum = false) c hc
  simp only [lexeme?, Literal.scan?_append hc, mark?_append hc hne hslash] at hread ⊢
  cases hscan : Literal.scan? cs with
  | some found =>
    simp only [hscan, Option.some.injEq, Prod.mk.injEq] at hread
    simp [withRest, hread]
  | none =>
    cases hmark : mark? cs with
    | some found =>
      simp only [hscan, hmark, Option.some.injEq, Prod.mk.injEq] at hread
      simp [withRest, hread]
    | none =>
      simp only [hscan, hmark] at hread
      cases cs with
      | nil => simp at hne
      | cons d cs =>
        simp only [Option.map_none, List.cons_append] at hread ⊢
        split at hread
        · simp only [Option.some.injEq, Prod.mk.injEq] at hread
          have htake := takeWhile_append_cons halnum (d :: cs) more
          have hdrop := dropWhile_append_cons halnum (d :: cs) more
          rw [List.cons_append] at htake hdrop
          simp [*]
        · simp at hread

/-- In front of a character that continues nothing, a text is cut as if it ended there. -/
theorem Lexed.append {c : Char} {cs more : List Char} {ls ls' : List Lexeme} (hfirst : Lexed cs ls) (hc : c ∈ closers)
    (hslash : c = '/' → cs.getLast? ≠ some '/') (hsecond : Lexed (c :: more) ls') :
    Lexed (cs ++ c :: more) (ls ++ ls') := by
  induction hfirst with
  | nil => exact hsecond
  | @blank d cs ls hblank _ ih =>
    refine .blank hblank (ih fun h => ?_)
    have hlast := hslash h
    cases cs with
    | nil => simp
    | cons e cs => simpa using hlast
  | @lexeme cs rest l ls hlexeme _ ih =>
    refine .lexeme (lexeme?_append hc hslash hlexeme more) (ih fun h => ?_)
    obtain ⟨front, -, rfl⟩ := shortened_lexeme hlexeme
    have hlast := hslash h
    cases rest with
    | nil => simp
    | cons e rest => simpa [List.getLast?_append] using hlast

end AlgebraTutor.Reader
