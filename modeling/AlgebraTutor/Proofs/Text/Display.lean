import AlgebraTutor.Text.Display

/-!
# Plain characters

A parenthesis, a blank or a sign changes nothing in how the characters before and behind it are written: the text on
either side becomes plain by itself.
-/

namespace AlgebraTutor.Text

/-- Whether something holds of all characters in a list is decided along the list, not over all characters. -/
instance (priority := 2000) decidableForallMemChars (cs : List Char) (P : Char → Prop) [DecidablePred P] :
    Decidable (∀ c ∈ cs, P c) :=
  List.decidableBAll P cs

/-- The character is neither a letter nor a decimal digit. -/
def isSeparator (c : Char) : Bool :=
  !c.isAlpha && !isDecimalDigit c

theorem lowerPi_cons {d : Char} (hd : d ≠ 'P') (afterLetter : Bool) (cs : List Char) :
    lowerPi afterLetter (d :: cs) = d :: lowerPi d.isAlpha cs := by
  rw [lowerPi]
  exact fun _ _ h _ => hd h

/-- Only a capital `P` with a letter behind it can begin a name that is written anew. -/
theorem lowerPi_eq_self {cs : List Char} (hcs : 'P' ∉ cs.dropLast) (afterLetter : Bool) : lowerPi afterLetter cs = cs := by
  induction cs generalizing afterLetter with
  | nil => rfl
  | cons c cs ih =>
    cases cs with
    | nil =>
      by_cases hc : c = 'P'
      · subst hc
        rfl
      · rw [lowerPi_cons hc, lowerPi]
    | cons d cs =>
      rw [List.dropLast_cons_of_ne_nil (by simp), List.mem_cons, not_or] at hcs
      rw [lowerPi_cons (Ne.symm hcs.1), ih hcs.2]

theorem head?_setOffLetters (cs : List Char) : (setOffLetters cs).head? = cs.head? := by
  fun_cases setOffLetters cs <;> rfl

/-- Only the letters of literals behind a digit are set off. -/
theorem setOffLetters_eq_self {cs : List Char} (hcs : ∀ c ∈ cs.tail, isLiteralLetter c = false) : setOffLetters cs = cs := by
  fun_induction setOffLetters cs with
  | case1 => rfl
  | case2 d l cs hset ih => simp [hcs l List.mem_cons_self] at hset
  | case3 d l cs hset ih => rw [ih fun c hc => hcs c (List.mem_cons_of_mem l hc)]
  | case4 c => rfl

section Separator

variable {c : Char} (hc : isSeparator c = true)

include hc

theorem isAlpha_separator : c.isAlpha = false := by
  simp_all [isSeparator]

theorem ne_of_isSeparator {d : Char} (hd : isSeparator d = false) : c ≠ d := by
  rintro rfl
  simp [hc] at hd

theorem lowerPi_separator (afterLetter : Bool) (cs : List Char) :
    lowerPi afterLetter (c :: cs) = c :: lowerPi false cs := by
  rw [lowerPi_cons (ne_of_isSeparator hc (by decide)), isAlpha_separator hc]

theorem startsOutsideLetters_append (cs more : List Char) :
    startsOutsideLetters (cs ++ c :: more) = startsOutsideLetters cs := by
  cases cs with
  | nil => simp [startsOutsideLetters, isAlpha_separator hc]
  | cons d cs => rfl

theorem lowerPi_append (afterLetter : Bool) (cs more : List Char) :
    lowerPi afterLetter (cs ++ c :: more) = lowerPi afterLetter cs ++ c :: lowerPi false more := by
  fun_induction lowerPi afterLetter cs with
  | case1 => exact lowerPi_separator hc _ more
  | case2 afterLetter i cs hpi ih =>
    rw [List.cons_append, List.cons_append, lowerPi, startsOutsideLetters_append hc, if_pos hpi, ih]
    rfl
  | case3 afterLetter i cs hpi ih =>
    rw [List.cons_append, List.cons_append, lowerPi, startsOutsideLetters_append hc, if_neg hpi]
    exact congrArg _ ih
  | case4 afterLetter d cs hp ih =>
    cases cs with
    | nil =>
      -- a last letter is followed by the separator now, which makes no name of it
      by_cases hd : d = 'P'
      · have hname : (c == 'I' || c == 'i') = false := by
          simp [ne_of_isSeparator hc (d := 'I') (by decide), ne_of_isSeparator hc (d := 'i') (by decide)]
        subst hd
        simpa [lowerPi, hname] using lowerPi_separator hc true more
      · rw [List.singleton_append, lowerPi_cons hd, lowerPi_separator hc]
        rfl
    | cons e cs =>
      rw [List.cons_append, lowerPi, ih]
      · rfl
      · exact fun _ _ h _ => hp _ _ h rfl

theorem startsWithLower_append (cs more : List Char) : startsWithLower (cs ++ c :: more) = startsWithLower cs := by
  cases cs with
  | nil =>
    have hlower : c.isLower = false := (Bool.or_eq_false_iff.mp (isAlpha_separator hc)).2
    exact hlower
  | cons d cs => rfl

theorem setOffLetters_separator (cs : List Char) : setOffLetters (c :: cs) = c :: setOffLetters cs := by
  have hdigit : isDecimalDigit c = false := by simp_all [isSeparator]
  cases cs with
  | nil => rfl
  | cons d cs => simp [setOffLetters, hdigit]

theorem setOffLetters_append (cs more : List Char) :
    setOffLetters (cs ++ c :: more) = setOffLetters cs ++ c :: setOffLetters more := by
  fun_induction setOffLetters cs with
  | case1 => exact setOffLetters_separator hc more
  | case2 d l cs hset ih =>
    rw [List.cons_append, List.cons_append, setOffLetters, startsWithLower_append hc, if_pos hset, ih]
    rfl
  | case3 d l cs hset ih =>
    rw [List.cons_append, List.cons_append, setOffLetters, startsWithLower_append hc, if_neg hset]
    exact congrArg _ ih
  | case4 d =>
    have hletter : isLiteralLetter c = false := by
      simp [isLiteralLetter, ne_of_isSeparator hc (d := 'e') (by decide), ne_of_isSeparator hc (d := 'E') (by decide),
        ne_of_isSeparator hc (d := 'j') (by decide), ne_of_isSeparator hc (d := 'J') (by decide)]
    simpa [setOffLetters, hletter] using setOffLetters_separator hc more

end Separator

end AlgebraTutor.Text
