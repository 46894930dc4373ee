import AlgebraTutor.Proofs.Input
import AlgebraTutor.Proofs.Reader.Piece
import AlgebraTutor.Proofs.Text.Arrangement

/-!
# The text of a sum

A product is written of letters, digits and single operators between them, and a sum of products with a sign between any two.
No two operators meet in such a text, so it passes for an expression.
-/

namespace AlgebraTutor.Text

/-- At least one of two neighbours is a letter or a digit. -/
def Separated (c d : Char) : Prop :=
  c.isAlphanum = true ∨ d.isAlphanum = true

/-- The text, which has no blanks, is that of a product without a sign. -/
structure IsProductText (cs : List Char) : Prop where
  begins : ∃ c ∈ cs.head?, c.isAlphanum = true
  ends : ∃ c ∈ cs.getLast?, c.isAlphanum = true
  chars : ∀ c ∈ cs, c.isAlphanum = true ∨ c ∈ ['*', '/', '^']
  separated : cs.IsChain Separated

variable {cs ds : List Char}

theorem isProductText_of_isAlphanum (hne : cs ≠ []) (hcs : ∀ c ∈ cs, c.isAlphanum = true) : IsProductText cs where
  begins := ⟨cs.head hne, List.head_mem_head? hne, hcs _ (List.head_mem hne)⟩
  ends := ⟨cs.getLast hne, List.getLast_mem_getLast? hne, hcs _ (List.getLast_mem hne)⟩
  chars c hc := .inl (hcs c hc)
  separated := (List.pairwise_of_forall_mem_list fun c hc _ _ => .inl (hcs c hc)).isChain

theorem IsProductText.append (h : IsProductText cs) (h' : IsProductText ds) : IsProductText (cs ++ ds) where
  begins := by
    obtain ⟨c, hc, halphanum⟩ := h.begins
    exact ⟨c, by simp [List.head?_append, show cs.head? = some c from hc], halphanum⟩
  ends := by
    obtain ⟨c, hc, halphanum⟩ := h'.ends
    exact ⟨c, by simp [List.getLast?_append, show ds.getLast? = some c from hc], halphanum⟩
  chars c hc := (List.mem_append.mp hc).elim (h.chars c) (h'.chars c)
  separated := by
    obtain ⟨c, hc, halphanum⟩ := h'.begins
    refine List.isChain_append.mpr ⟨h.separated, h'.separated, fun _ _ d hd => .inr ?_⟩
    rwa [← Option.mem_unique hc hd]

/-- Behind any character a text that begins with a letter or a digit stays separated. -/
theorem isChain_separated_cons (hcs : cs.IsChain Separated) (hbegins : ∃ c ∈ cs.head?, c.isAlphanum = true) (d : Char) :
    (d :: cs).IsChain Separated := by
  obtain ⟨c, hc, halphanum⟩ := hbegins
  refine List.isChain_cons.mpr ⟨fun e he => .inr ?_, hcs⟩
  rwa [← Option.mem_unique hc he]

/-- A text stays separated before any other, if it ends with a letter or a digit. -/
theorem isChain_separated_append (hcs : cs.IsChain Separated) (hends : ∃ c ∈ cs.getLast?, c.isAlphanum = true)
    (hds : ds.IsChain Separated) : (cs ++ ds).IsChain Separated := by
  obtain ⟨c, hc, halphanum⟩ := hends
  refine List.isChain_append.mpr ⟨hcs, hds, fun d hd _ _ => .inl ?_⟩
  rwa [← Option.mem_unique hc hd]

theorem IsProductText.operator (h : IsProductText cs) (h' : IsProductText ds) {d : Char} (hd : d ∈ ['*', '/', '^']) :
    IsProductText (cs ++ d :: ds) where
  begins := by
    obtain ⟨c, hc, halphanum⟩ := h.begins
    exact ⟨c, by simp [List.head?_append, show cs.head? = some c from hc], halphanum⟩
  ends := by
    obtain ⟨c, hc, halphanum⟩ := h'.ends
    exact ⟨c, by simp [List.getLast?_append, List.getLast?_cons, show ds.getLast? = some c from hc], halphanum⟩
  chars c hc := by
    rcases List.mem_append.mp hc with hc | hc
    · exact h.chars c hc
    · rcases List.mem_cons.mp hc with rfl | hc
      · exact .inr hd
      · exact h'.chars c hc
  separated := isChain_separated_append h.separated h.ends (isChain_separated_cons h'.separated h'.begins d)

/-- Without product signs it is the text of a term. -/
theorem IsProductText.isTermText (h : IsProductText cs) : IsTermText (cs.filter fun c => !(c == '*')) := by
  have hother {c d : Char} (hc : c ∈ cs.filter fun c => !(c == '*')) (hd : d.isAlphanum = false ∧ d ∉ ['*', '/', '^']) : c ≠ d := by
    rintro rfl
    rcases h.chars c (List.mem_of_mem_filter hc) with halphanum | hmem
    · simp [hd.1] at halphanum
    · exact hd.2 hmem
  refine ⟨fun c hc => ⟨hother hc (by decide), hother hc (by decide)⟩, fun c hc => ⟨hother hc (by decide), hother hc (by decide)⟩, ?_⟩
  obtain ⟨c, hc, halphanum⟩ := h.ends
  obtain ⟨front, rfl⟩ := List.getLast?_eq_some_iff.mp hc
  have hstar : (c == '*') = false := beq_eq_false_iff_ne.mpr (ne_of_isAlphanum halphanum (by decide))
  exact ⟨c, by simp [List.filter_append, hstar], endsTerm_of_isAlphanum halphanum⟩

/-! ### Sums -/

theorem isChain_separated_flatMap_signed {terms : List (List Char × Sign)} (hterms : ∀ t ∈ terms, IsProductText t.1) :
    (terms.flatMap signed).IsChain Separated := by
  induction terms with
  | nil => exact .nil
  | cons t terms ih =>
    obtain ⟨ht, hterms⟩ := List.forall_mem_cons.mp hterms
    obtain ⟨c, hc, halphanum⟩ := ht.begins
    have hbegins : ∃ c ∈ (t.1 ++ terms.flatMap signed).head?, c.isAlphanum = true :=
      ⟨c, by simp [List.head?_append, show t.1.head? = some c from hc], halphanum⟩
    exact isChain_separated_cons (isChain_separated_append ht.separated ht.ends (ih hterms)) hbegins t.2.char

theorem isChain_separated_joinSigned {terms : List (List Char × Sign)} (hterms : ∀ t ∈ terms, IsProductText t.1) :
    (joinSigned terms).IsChain Separated := by
  cases terms with
  | nil => exact .nil
  | cons t terms =>
    obtain ⟨cs, sign⟩ := t
    cases sign with
    | plus =>
      obtain ⟨ht, hterms⟩ := List.forall_mem_cons.mp hterms
      exact isChain_separated_append ht.separated ht.ends (isChain_separated_flatMap_signed hterms)
    | minus => exact isChain_separated_flatMap_signed hterms

theorem mem_joinSigned {terms : List (List Char × Sign)} {c : Char} (hc : c ∈ joinSigned terms) :
    c = '+' ∨ c = '-' ∨ ∃ t ∈ terms, c ∈ t.1 := by
  cases terms with
  | nil => simp [joinSigned] at hc
  | cons t terms =>
    obtain ⟨cs, sign⟩ := t
    have hsign (sign : Sign) : sign.char = '+' ∨ sign.char = '-' := by cases sign <;> simp [Sign.char]
    rcases List.mem_append.mp hc with hc | hc
    · cases sign with
      | plus => exact .inr (.inr ⟨_, List.mem_cons_self, hc⟩)
      | minus =>
        rcases List.mem_cons.mp hc with rfl | hc
        · exact .inr (.inl rfl)
        · exact .inr (.inr ⟨_, List.mem_cons_self, hc⟩)
    · obtain ⟨t, ht, hc⟩ := List.mem_flatMap.mp hc
      rcases List.mem_cons.mp hc with rfl | hc
      · exact (hsign t.2).imp_right .inl
      · exact .inr (.inr ⟨t, List.mem_cons_of_mem _ ht, hc⟩)

/-- Two operators never meet in a separated text. -/
theorem containsChars_eq_false_of_separated (hcs : cs.IsChain Separated) {c d : Char} (hc : c.isAlphanum = false)
    (hd : d.isAlphanum = false) (w : List Char) : containsChars (c :: d :: w) cs = false := by
  induction cs with
  | nil => rfl
  | cons e cs ih =>
    obtain ⟨hhead, htail⟩ := List.isChain_cons.mp hcs
    rw [containsChars, ih htail, Bool.or_false]
    cases cs with
    | nil => simp [List.isPrefixOf]
    | cons e' cs =>
      have hseparated : Separated e e' := hhead e' rfl
      simp only [List.isPrefixOf, Bool.and_eq_false_imp, beq_iff_eq]
      rintro rfl rfl
      rcases hseparated with h | h
      · simp [hc] at h
      · simp [hd] at h

/-- The text of a sum as it is written, with blanks around its signs. -/
def joinSpaced : List (List Char × Sign) → List Char
  | [] => []
  | (cs, sign) :: rest => (if sign = .plus then cs else '-' :: cs) ++ rest.flatMap fun t => ' ' :: t.2.char :: ' ' :: t.1

theorem filter_joinSpaced {p : Char → Bool} (hblank : p ' ' = false) (hplus : p '+' = true) (hminus : p '-' = true)
    (terms : List (List Char × Sign)) :
    (joinSpaced terms).filter p = joinSigned (terms.map fun t => (t.1.filter p, t.2)) := by
  have hsign (sign : Sign) : p sign.char = true := by cases sign <;> assumption
  cases terms with
  | nil => rfl
  | cons t terms =>
    obtain ⟨cs, sign⟩ := t
    have hlater : (terms.flatMap fun t => ' ' :: t.2.char :: ' ' :: t.1).filter p =
        (terms.map fun t => (t.1.filter p, t.2)).flatMap signed := by
      simp [List.filter_flatMap, List.flatMap_map, hblank, hsign, signed]
    rw [joinSpaced, List.filter_append, hlater, List.map_cons, joinSigned]
    cases sign <;> simp [hminus]

theorem bareText_joinSpaced (terms : List (List Char × Sign)) :
    bareText (joinSpaced terms) = joinSigned (terms.map fun t => (bareText t.1, t.2)) :=
  filter_joinSpaced (by decide) (by decide) (by decide) terms

theorem bareText_eq_filter (cs : List Char) : bareText cs = (withoutBlanks cs).filter fun c => !(c == '*') := by
  rw [bareText, withoutBlanks, List.filter_filter]
  simp only [Bool.not_or, Bool.and_comm]

/-- A sum of products is taken as an expression. -/
theorem ofText_joinSpaced {terms : List (List Char × Sign)} (hterms : ∀ t ∈ terms, IsProductText (withoutBlanks t.1))
    (hne : joinSpaced terms ≠ []) (htrim : trimChars (joinSpaced terms) = joinSpaced terms) :
    Input.ofText (String.ofList (joinSpaced terms)) = .ok ⟨String.ofList (joinSpaced terms), none⟩ := by
  have hwithout : withoutBlanks (joinSpaced terms) = joinSigned (terms.map fun t => (withoutBlanks t.1, t.2)) :=
    filter_joinSpaced (by decide) (by decide) (by decide) terms
  have hproducts : ∀ t ∈ terms.map fun t => (withoutBlanks t.1, t.2), IsProductText t.1 := List.forall_mem_map.mpr hterms
  have hseparated := isChain_separated_joinSigned hproducts
  refine Input.ofText_expression hne htrim ?_ fun hmem => ?_
  · rw [← hwithout] at hseparated
    simp [Input.hasDoubledOperator, Input.doubledOperators, containsChars_eq_false_of_separated hseparated]
  · have hkept : '=' ∈ withoutBlanks (joinSpaced terms) := List.mem_filter.mpr ⟨hmem, by decide⟩
    rw [hwithout] at hkept
    rcases mem_joinSigned hkept with h | h | ⟨t, ht, h⟩
    · simp at h
    · simp at h
    · rcases (hproducts t ht).chars _ h with h | h <;> revert h <;> decide

end AlgebraTutor.Text
