import AlgebraTutor.Proofs.Text.Blank
import AlgebraTutor.Proofs.Text.Display

/-!
# Plain texts

What a text becomes is plain: it is trimmed, no character of it is spelled in another way, and neither a name nor a letter behind
a digit is written anew. A plain text stays as it is, so making a text plain a second time changes nothing.

Each step leaves alone what the steps before it have done. Spelling keeps blanks at the ends where they were. Writing a name anew
and setting a letter off bring in characters that stand for themselves, and both keep what stands beside a `P` or behind a digit.
-/

namespace AlgebraTutor.Text

/-! ### Trimmed texts -/

/-- A trimmed text stays trimmed when its ends are replaced by characters that are blank only if these are. -/
theorem trimChars_eq_self_of_ends {cs ds : List Char} (hds : trimChars ds = ds)
    (hhead : cs.head?.map isBlank = ds.head?.map isBlank) (hlast : cs.getLast?.map isBlank = ds.getLast?.map isBlank) :
    trimChars cs = cs := by
  refine trimChars_eq_self (fun c hc => ?_) fun c hc => ?_
  · rw [Option.mem_def.mp hc, Option.map_some, eq_comm, Option.map_eq_some_iff] at hhead
    obtain ⟨d, hd, heq⟩ := hhead
    rw [← heq]
    exact not_isBlank_head_trimChars (hds.symm ▸ hd)
  · rw [Option.mem_def.mp hc, Option.map_some, eq_comm, Option.map_eq_some_iff] at hlast
    obtain ⟨d, hd, heq⟩ := hlast
    rw [← heq]
    exact not_isBlank_last_trimChars (hds.symm ▸ hd)

/-! ### Spelling -/

/-- The characters that another one is spelled with stand for themselves. -/
theorem plainSpelling_of_mem {c d : Char} (hd : d ∈ plainSpelling c) : plainSpelling d = [d] := by
  unfold plainSpelling at hd
  split_ifs at hd with hroot hpi hstar hminus hslash hopen hclose
  iterate 7
    · revert d
      decide
  obtain rfl := List.mem_singleton.mp hd
  simp [plainSpelling, hroot, hpi, hstar, hminus, hslash, hopen, hclose]

theorem ends_plainSpelling (c : Char) :
    (plainSpelling c).head?.map isBlank = some (isBlank c) ∧ (plainSpelling c).getLast?.map isBlank = some (isBlank c) := by
  unfold plainSpelling
  split_ifs with hroot hpi hstar hminus hslash hopen hclose
  · subst hroot
    decide
  · subst hpi
    decide
  · rcases hstar with rfl | rfl <;> decide
  · subst hminus
    decide
  · subst hslash
    decide
  · rcases hopen with rfl | rfl <;> decide
  · rcases hclose with rfl | rfl <;> decide
  · exact ⟨rfl, rfl⟩

theorem head?_flatMap_plainSpelling (cs : List Char) :
    (cs.flatMap plainSpelling).head?.map isBlank = cs.head?.map isBlank := by
  cases cs with
  | nil => rfl
  | cons c cs =>
    obtain ⟨d, hd, hblank⟩ := Option.map_eq_some_iff.mp (ends_plainSpelling c).1
    rw [List.flatMap_cons, List.head?_append, hd, Option.some_or, List.head?_cons, Option.map_some, Option.map_some, hblank]

theorem getLast?_flatMap_plainSpelling (cs : List Char) :
    (cs.flatMap plainSpelling).getLast?.map isBlank = cs.getLast?.map isBlank := by
  cases cs using List.reverseRecOn with
  | nil => rfl
  | append_singleton cs c =>
    obtain ⟨d, hd, hblank⟩ := Option.map_eq_some_iff.mp (ends_plainSpelling c).2
    rw [List.flatMap_append, List.flatMap_singleton, List.getLast?_append, hd, Option.some_or, List.getLast?_concat,
      Option.map_some, Option.map_some, hblank]

/-! ### The name of the number -/

theorem map_isBlank_lowerPi (afterLetter : Bool) (cs : List Char) : (lowerPi afterLetter cs).map isBlank = cs.map isBlank := by
  fun_induction lowerPi afterLetter cs with
  | case1 => rfl
  | case2 afterLetter i cs hpi ih =>
    have hi : i = 'I' ∨ i = 'i' := by
      simp only [Bool.and_eq_true, Bool.or_eq_true, beq_iff_eq] at hpi
      exact hpi.1.2
    rcases hi with rfl | rfl <;> simp [ih] <;> decide
  | case3 afterLetter i cs hpi ih => simp only [List.map_cons, ih]
  | case4 afterLetter d cs hp ih => rw [List.map_cons, List.map_cons, ih]

theorem mem_lowerPi {afterLetter : Bool} {cs : List Char} {c : Char} (hc : c ∈ lowerPi afterLetter cs) :
    c ∈ cs ∨ c ∈ ['p', 'i'] := by
  fun_induction lowerPi afterLetter cs with
  | case1 => exact .inl hc
  | case2 afterLetter i cs hpi ih => grind
  | case3 afterLetter i cs hpi ih => grind
  | case4 afterLetter d cs hp ih => grind

/-- Behind a letter nothing is a name. -/
theorem lowerPi_true_cons (c : Char) (cs : List Char) : lowerPi true (c :: cs) = c :: lowerPi c.isAlpha cs := by
  by_cases hc : c = 'P'
  · subst hc
    cases cs with
    | nil => rfl
    | cons d cs => rw [lowerPi]; rfl
  · exact lowerPi_cons hc true cs

theorem startsOutsideLetters_lowerPi (afterLetter : Bool) (cs : List Char) :
    startsOutsideLetters (lowerPi afterLetter cs) = startsOutsideLetters cs := by
  fun_cases lowerPi afterLetter cs <;> rfl

theorem lowerPi_lowerPi (afterLetter : Bool) (cs : List Char) :
    lowerPi afterLetter (lowerPi afterLetter cs) = lowerPi afterLetter cs := by
  fun_induction lowerPi afterLetter cs with
  | case1 => rfl
  | case2 afterLetter i cs hpi ih =>
    rw [lowerPi_cons (by decide), lowerPi_cons (by decide)]
    exact congrArg _ (congrArg _ ih)
  | case3 afterLetter i cs hpi ih =>
    rw [lowerPi_true_cons] at ih ⊢
    rw [lowerPi, startsOutsideLetters_lowerPi, if_neg hpi, ih]
  | case4 afterLetter d cs hp ih =>
    by_cases hd : d = 'P'
    · subst hd
      cases cs with
      | nil => rfl
      | cons e cs => exact absurd rfl (hp e cs rfl)
    · rw [lowerPi_cons hd, ih]

/-! ### Letters behind digits -/

theorem getLast?_setOffLetters (cs : List Char) : (setOffLetters cs).getLast? = cs.getLast? := by
  fun_induction setOffLetters cs with
  | case1 => rfl
  | case2 d l cs hset ih => simp [List.getLast?_cons, ih]
  | case3 d l cs hset ih => rw [List.getLast?_cons, ih, List.getLast?_cons (a := d)]
  | case4 c => rfl

theorem mem_setOffLetters {cs : List Char} {c : Char} (hc : c ∈ setOffLetters cs) : c ∈ cs ∨ c = '*' := by
  fun_induction setOffLetters cs with
  | case1 => exact .inl hc
  | case2 d l cs hset ih => grind
  | case3 d l cs hset ih => grind
  | case4 d => exact .inl hc

theorem exists_setOffLetters_cons (c : Char) (cs : List Char) : ∃ tail, setOffLetters (c :: cs) = c :: tail :=
  List.head?_eq_some_iff.mp (head?_setOffLetters (c :: cs))

theorem setOffLetters_letter {c : Char} (hc : isDecimalDigit c = false) (cs : List Char) :
    setOffLetters (c :: cs) = c :: setOffLetters cs := by
  cases cs with
  | nil => rfl
  | cons d cs => simp [setOffLetters, hc]

theorem isDecimalDigit_of_isLiteralLetter {c : Char} (hc : isLiteralLetter c = true) : isDecimalDigit c = false := by
  have hletters : ∀ c ∈ ['e', 'E', 'j', 'J'], isDecimalDigit c = false := by decide
  exact hletters c (by simpa [isLiteralLetter, or_assoc] using hc)

theorem startsWithLower_setOffLetters (cs : List Char) : startsWithLower (setOffLetters cs) = startsWithLower cs := by
  fun_cases setOffLetters cs <;> rfl

theorem startsOutsideLetters_setOffLetters (cs : List Char) :
    startsOutsideLetters (setOffLetters cs) = startsOutsideLetters cs := by
  fun_cases setOffLetters cs <;> rfl

theorem setOffLetters_setOffLetters (cs : List Char) : setOffLetters (setOffLetters cs) = setOffLetters cs := by
  fun_induction setOffLetters cs with
  | case1 => rfl
  | case2 d l cs hset ih =>
    -- the star keeps the letter from the digit
    simp only [Bool.and_eq_true] at hset
    have hl := isDecimalDigit_of_isLiteralLetter hset.1.2
    have hstar : setOffLetters (d :: '*' :: l :: setOffLetters cs) = d :: setOffLetters ('*' :: l :: setOffLetters cs) := by
      simp [setOffLetters, isLiteralLetter]
    rw [hstar, setOffLetters_letter (by decide), setOffLetters_letter hl, ih]
  | case3 d l cs hset ih =>
    obtain ⟨tail, htail⟩ := exists_setOffLetters_cons l cs
    rw [htail] at ih ⊢
    rw [setOffLetters, ih, if_neg]
    -- a letter that could be set off has behind it what it had before
    by_cases hl : isLiteralLetter l = true
    · rw [setOffLetters_letter (isDecimalDigit_of_isLiteralLetter hl), List.cons.injEq, and_iff_right rfl] at htail
      rwa [← htail, startsWithLower_setOffLetters]
    · simp [hl]
  | case4 c => rfl

/-- Setting letters off makes no name of what was none. -/
theorem lowerPi_setOffLetters {afterLetter : Bool} {cs : List Char} (h : lowerPi afterLetter cs = cs) :
    lowerPi afterLetter (setOffLetters cs) = setOffLetters cs := by
  have hcons {c : Char} (hc : c ≠ 'P') {afterLetter : Bool} {ds : List Char} (h : lowerPi afterLetter (c :: ds) = c :: ds) :
      lowerPi c.isAlpha ds = ds := by
    rw [lowerPi_cons hc] at h
    exact (List.cons.inj h).2
  fun_induction setOffLetters cs generalizing afterLetter with
  | case1 => rfl
  | case2 d l cs hset ih =>
    simp only [Bool.and_eq_true] at hset
    have hd : d ≠ 'P' := by
      rintro rfl
      exact absurd hset.1.1 (by decide)
    have hl : l ≠ 'P' := by
      rintro rfl
      exact absurd hset.1.2 (by decide)
    rw [lowerPi_cons hd, lowerPi_cons (by decide), lowerPi_cons hl, ih (hcons hl (hcons hd h))]
  | case3 d l cs hset ih =>
    by_cases hd : d = 'P'
    · subst hd
      rw [lowerPi] at h
      split_ifs at h with hpi
      · simp at h
      · obtain ⟨tail, htail⟩ := exists_setOffLetters_cons l cs
        have hrest := ih (List.cons.inj h).2
        rw [htail] at hrest ⊢
        rw [lowerPi, hrest, if_neg]
        by_cases hl : l = 'I' ∨ l = 'i'
        · have hdigit : isDecimalDigit l = false := by rcases hl with rfl | rfl <;> decide
          rw [setOffLetters_letter hdigit, List.cons.injEq, and_iff_right rfl] at htail
          rwa [← htail, startsOutsideLetters_setOffLetters]
        · simp [hl]
    · rw [lowerPi_cons hd, ih (hcons hd h)]
  | case4 c => exact h

/-! ### Plain texts -/

/-- The text is trimmed, and neither a display character nor a name nor a letter of it is written in another way. -/
structure IsPlainText (cs : List Char) : Prop where
  trimmed : trimChars cs = cs
  spelled : ∀ c ∈ cs, plainSpelling c = [c]
  lowered : lowerPi false cs = cs
  apart : setOffLetters cs = cs

theorem IsPlainText.plain {cs : List Char} (h : IsPlainText cs) : plain cs = cs := by
  have hspelling : cs.flatMap plainSpelling = cs := by
    rw [List.flatMap_congr h.spelled]
    simp
  rw [Text.plain, h.trimmed, hspelling, h.lowered, h.apart]

theorem isPlainText_plain (cs : List Char) : IsPlainText (plain cs) where
  trimmed := by
    have hspelled : trimChars ((trimChars cs).flatMap plainSpelling) = (trimChars cs).flatMap plainSpelling :=
      trimChars_eq_self_of_ends (trimChars_trimChars cs) (head?_flatMap_plainSpelling _) (getLast?_flatMap_plainSpelling _)
    have hblanks := map_isBlank_lowerPi false ((trimChars cs).flatMap plainSpelling)
    refine trimChars_eq_self_of_ends hspelled ?_ ?_
    · rw [Text.plain, head?_setOffLetters, ← List.head?_map, hblanks, List.head?_map]
    · rw [Text.plain, getLast?_setOffLetters, ← List.getLast?_map, hblanks, List.getLast?_map]
  spelled c hc := by
    rcases mem_setOffLetters hc with hc | rfl
    · rcases mem_lowerPi hc with hc | hc
      · obtain ⟨d, -, hc⟩ := List.mem_flatMap.mp hc
        exact plainSpelling_of_mem hc
      · have hnew : ∀ c ∈ ['p', 'i'], plainSpelling c = [c] := by decide
        exact hnew c hc
    · rfl
  lowered := lowerPi_setOffLetters (lowerPi_lowerPi _ _)
  apart := setOffLetters_setOffLetters _

/-- A text that has been made plain is not rewritten a second time, neither by the rule for names nor by that for letters. -/
theorem plain_plain (cs : List Char) :
    plain (plain cs) = plain cs ∧ lowerPi false (plain cs) = plain cs ∧ setOffLetters (plain cs) = plain cs :=
  ⟨(isPlainText_plain cs).plain, (isPlainText_plain cs).lowered, (isPlainText_plain cs).apart⟩

example : plain " 2e · PI ".toList = "2*e * pi".toList := by
  decide

end AlgebraTutor.Text
