import Mathlib.Data.List.Lex
import Mathlib.Data.List.Sort
import Mathlib.Data.Char
import AlgebraTutor.Pattern.Arrangement
import AlgebraTutor.Tree.Terms

/-!
# The terms of a text

A text that is written of terms, each behind its sign, is cut into these terms again, and terms in another order are the
same when they are sorted. So the order in which terms are written does not matter for the arrangement of a text.
-/

namespace AlgebraTutor.Text

theorem sameArrangement_refl (cs : List Char) : sameArrangement cs cs = true := by
  simp [sameArrangement]

/-! ### Sorting -/

theorem insertSorted_eq_orderedInsert (s : List Char) (ts : List (List Char)) :
    insertSorted s ts = ts.orderedInsert (· ≤ ·) s := by
  induction ts with
  | nil => rfl
  | cons t ts ih =>
    rw [insertSorted, List.orderedInsert_cons, ih]
    split_ifs with hlt hle hle
    · exact absurd hle (not_le.mpr hlt)
    · rfl
    · rfl
    · exact absurd (not_lt.mp hlt) hle

theorem sortTexts_eq_insertionSort (ts : List (List Char)) : sortTexts ts = ts.insertionSort (· ≤ ·) := by
  induction ts with
  | nil => rfl
  | cons t ts ih => rw [List.insertionSort_cons, ← ih, ← insertSorted_eq_orderedInsert]; rfl

theorem sortTexts_eq_of_perm {ts us : List (List Char)} (h : ts.Perm us) : sortTexts ts = sortTexts us := by
  rw [sortTexts_eq_insertionSort, sortTexts_eq_insertionSort]
  refine List.Perm.eq_of_pairwise (fun a b _ _ => le_antisymm) (List.pairwise_insertionSort _ ts)
    (List.pairwise_insertionSort _ us) ?_
  exact ((List.perm_insertionSort _ ts).trans h).trans (List.perm_insertionSort _ us).symm

theorem sortTexts_perm (ts : List (List Char)) : (sortTexts ts).Perm ts := by
  rw [sortTexts_eq_insertionSort]
  exact List.perm_insertionSort _ ts

/-! ### Cutting -/

theorem ne_of_isAlphanum {c d : Char} (hc : c.isAlphanum = true) (hd : d.isAlphanum = false) : c ≠ d := by
  rintro rfl
  exact Bool.false_ne_true (hd.symm.trans hc)

theorem endsTerm_of_isAlphanum {c : Char} (hc : c.isAlphanum = true) : endsTerm c = true := by
  have hne {d : Char} (hd : d.isAlphanum = false) : (c == d) = false := beq_eq_false_iff_ne.mpr (ne_of_isAlphanum hc hd)
  simp [endsTerm, hne (d := '+') (by decide), hne (d := '-') (by decide), hne (d := '*') (by decide),
    hne (d := '/') (by decide), hne (d := '^') (by decide)]

/-- The text without blanks and product signs is that of a term: it holds no sign and no parenthesis and does not end with
an operator. -/
structure IsTermText (cs : List Char) : Prop where
  unsigned : ∀ c ∈ cs, c ≠ '+' ∧ c ≠ '-'
  unparenthesized : ∀ c ∈ cs, c ≠ '(' ∧ c ≠ ')'
  ends : ∃ c ∈ cs.getLast?, endsTerm c = true

/-- The text of a term behind its sign. -/
def signed (t : List Char × Sign) : List Char :=
  t.2.char :: t.1

/-- The text of a sum: a plus in front of its first term is left out. -/
def joinSigned : List (List Char × Sign) → List Char
  | [] => []
  | (cs, sign) :: rest => (if sign = .plus then cs else '-' :: cs) ++ rest.flatMap signed

/-- Outside all parentheses, cutting passes over the text and begins no term in it. -/
def IsUncut (cs : List Char) : Prop :=
  ∀ reversed rest, cutTerms 0 reversed (cs ++ rest) = cutTerms 0 (cs.reverse ++ reversed) rest

theorem isUncut_of_forall {cs : List Char} (hunsigned : ∀ c ∈ cs, c ≠ '+' ∧ c ≠ '-')
    (hunparenthesized : ∀ c ∈ cs, c ≠ '(' ∧ c ≠ ')') : IsUncut cs := by
  intro reversed rest
  induction cs generalizing reversed with
  | nil => rfl
  | cons c cs ih =>
    obtain ⟨hsign, hunsigned⟩ := List.forall_mem_cons.mp hunsigned
    obtain ⟨hparen, hunparenthesized⟩ := List.forall_mem_cons.mp hunparenthesized
    have hbegins : beginsTerm 0 c reversed = false := by simp [beginsTerm, hsign.1, hsign.2]
    rw [List.cons_append, cutTerms, depthAfter, if_neg hparen.1, if_neg hparen.2, hbegins, if_neg Bool.false_ne_true,
      ih hunsigned hunparenthesized, List.reverse_cons, List.append_assoc, List.singleton_append]

theorem IsUncut.append {cs ds : List Char} (h : IsUncut cs) (h' : IsUncut ds) : IsUncut (cs ++ ds) := by
  intro reversed rest
  rw [List.append_assoc, h, h', List.reverse_append, List.append_assoc]

/-- The text is that of one term, which may begin with a minus: at the beginning and behind a sign cutting passes over it, and a
sign behind it begins the next term. -/
structure IsUnbroken (cs : List Char) : Prop where
  begins : '+' ∉ cs.head?
  passes : ∀ reversed rest, (∀ c ∈ reversed.head?, endsTerm c = false) →
    cutTerms 0 reversed (cs ++ rest) = cutTerms 0 (cs.reverse ++ reversed) rest
  ends : ∃ c ∈ cs.getLast?, endsTerm c = true

theorem IsUncut.isUnbroken {cs : List Char} (h : IsUncut cs) (hbegins : '+' ∉ cs.head?) (hends : ∃ c ∈ cs.getLast?, endsTerm c = true) :
    IsUnbroken cs where
  begins := hbegins
  passes reversed rest _ := h reversed rest
  ends := hends

/-- Behind a sign, or at the beginning, a minus begins no term. -/
theorem IsUncut.minus {cs : List Char} (h : IsUncut cs) (hends : ∃ c ∈ cs.getLast?, endsTerm c = true) : IsUnbroken ('-' :: cs) where
  begins := by simp
  passes reversed rest hhead := by
    have hbegins : beginsTerm 0 '-' reversed = false := by
      cases reversed with
      | nil => rfl
      | cons c reversed => simpa [beginsTerm] using hhead c rfl
    have hdepth : depthAfter 0 '-' = 0 := rfl
    rw [List.cons_append, cutTerms, hdepth, hbegins, if_neg Bool.false_ne_true, h, List.reverse_cons, List.append_assoc]
    rfl
  ends := by
    obtain ⟨c, hc, hlast⟩ := hends
    exact ⟨c, by simp [List.getLast?_cons, Option.mem_def.mp hc], hlast⟩

theorem IsUnbroken.append {cs ds : List Char} (h : IsUnbroken cs) (h' : IsUncut ds) (hends : ∃ c ∈ ds.getLast?, endsTerm c = true) :
    IsUnbroken (cs ++ ds) where
  begins := by
    obtain ⟨c, hc, -⟩ := h.ends
    cases cs with
    | nil => simp at hc
    | cons d cs => exact h.begins
  passes reversed rest hhead := by
    rw [List.append_assoc, h.passes reversed _ hhead, h', List.reverse_append, List.append_assoc]
  ends := by
    obtain ⟨c, hc, hlast⟩ := hends
    exact ⟨c, by simp [List.getLast?_append, Option.mem_def.mp hc], hlast⟩

theorem IsTermText.isUnbroken {cs : List Char} (h : IsTermText cs) : IsUnbroken cs where
  begins hplus := (h.unsigned '+' (List.mem_of_mem_head? hplus)).1 rfl
  passes reversed rest _ := isUncut_of_forall h.unsigned h.unparenthesized reversed rest
  ends := h.ends

/-- One more term is written behind the others with its sign. -/
theorem joinSigned_concat {terms : List (List Char × Sign)} (hne : terms ≠ []) (t : List Char × Sign) :
    joinSigned (terms ++ [t]) = joinSigned terms ++ signed t := by
  obtain ⟨⟨first, sign⟩, terms, rfl⟩ := List.exists_cons_of_ne_nil hne
  simp [joinSigned]

/-- Behind a term each further one is cut off with its sign. -/
theorem cutTerms_signed {terms : List (List Char × Sign)} (hterms : ∀ t ∈ terms, IsUnbroken t.1) {reversed : List Char}
    (hends : ∃ c ∈ reversed.head?, endsTerm c = true) :
    cutTerms 0 reversed (terms.flatMap signed) = reversed.reverse :: terms.map signed := by
  induction terms generalizing reversed with
  | nil =>
    obtain ⟨c, hc, -⟩ := hends
    have hne : reversed.isEmpty = false := by cases reversed <;> simp_all
    simp [cutTerms, hne]
  | cons t terms ih =>
    obtain ⟨⟨-, hpasses, c, hc, hlast⟩, hterms⟩ := List.forall_mem_cons.mp hterms
    obtain ⟨d, hd, hends⟩ := hends
    obtain ⟨more, rfl⟩ := List.head?_eq_some_iff.mp hd
    have hdepth : depthAfter 0 t.2.char = 0 := by cases t.2 <;> rfl
    have hbegins : beginsTerm 0 t.2.char (d :: more) = true := by cases t.2 <;> simp [beginsTerm, hends, Sign.char]
    have hsign : ∀ e ∈ [t.2.char].head?, endsTerm e = false := by cases t.2 <;> simp [Sign.char, endsTerm]
    have hnext : ∃ e ∈ (t.1.reverse ++ [t.2.char]).head?, endsTerm e = true :=
      ⟨c, by simp [List.head?_append, show t.1.getLast? = some c from hc], hlast⟩
    rw [List.flatMap_cons, signed, List.cons_append, cutTerms, hdepth, hbegins, if_pos rfl, hpasses _ _ hsign, ih hterms hnext]
    simp [signed]

theorem signTerm_signed (t : List Char × Sign) : signTerm (signed t) = signed t := by
  obtain ⟨cs, sign⟩ := t
  cases sign <;> rfl

theorem signTerm_of_not_plus {cs : List Char} (hplus : '+' ∉ cs.head?) :
    signTerm cs = if '-' ∈ cs.head? then cs else '+' :: cs := by
  unfold signTerm
  split
  · exact absurd rfl hplus
  · simp
  · rename_i hminus
    rw [if_neg]
    intro hmem
    obtain ⟨ds, hds⟩ := List.head?_eq_some_iff.mp hmem
    exact hminus ds hds

/-- The terms of a sum, each behind its sign. In front of the first one no plus is written if it begins with a minus. -/
def signedTexts : List (List Char × Sign) → List (List Char)
  | [] => []
  | t :: rest => (if t.2 = .plus ∧ '-' ∈ t.1.head? then t.1 else signed t) :: rest.map signed

theorem length_signedTexts (terms : List (List Char × Sign)) : (signedTexts terms).length = terms.length := by
  cases terms <;> simp [signedTexts]

theorem getElem?_signedTexts {terms : List (List Char × Sign)} {i : ℕ} {t : List Char × Sign} (h : terms[i]? = some t) :
    (signedTexts terms)[i]? = some (if i = 0 ∧ t.2 = .plus ∧ '-' ∈ t.1.head? then t.1 else signed t) := by
  cases terms with
  | nil => simp at h
  | cons first terms =>
    cases i with
    | zero =>
      obtain rfl := Option.some.inj h
      simp [signedTexts]
    | succ i =>
      have hlater : terms[i]? = some t := h
      simp [signedTexts, hlater]

/-- A sum of unbroken terms is cut into these terms. -/
theorem termTexts_of_unbroken {terms : List (List Char × Sign)} (hterms : ∀ t ∈ terms, IsUnbroken t.1) :
    termTexts (joinSigned terms) = signedTexts terms := by
  cases terms with
  | nil => rfl
  | cons t terms =>
    obtain ⟨cs, sign⟩ := t
    obtain ⟨⟨hbegins, hpasses, c, hc, hlast⟩, hrest⟩ := List.forall_mem_cons.mp hterms
    have hlater : (terms.map signed).map signTerm = terms.map signed := by simp [signTerm_signed]
    have hends (reversed : List Char) : ∃ e ∈ (cs.reverse ++ reversed).head?, endsTerm e = true :=
      ⟨c, by simp [List.head?_append, show cs.getLast? = some c from hc], hlast⟩
    cases sign with
    | plus =>
      rw [termTexts, joinSigned, if_pos rfl, hpasses [] _ (by simp), cutTerms_signed hrest (hends [])]
      simp [hlater, signTerm_of_not_plus hbegins, signedTexts, signed, Sign.char]
    | minus =>
      have hminus : cutTerms 0 [] ('-' :: (cs ++ terms.flatMap signed)) = cutTerms 0 ['-'] (cs ++ terms.flatMap signed) := rfl
      rw [termTexts, joinSigned, if_neg (by decide), List.cons_append, hminus, hpasses ['-'] _ (by simp [endsTerm]),
        cutTerms_signed hrest (hends ['-'])]
      simp [hlater, signTerm, signedTexts, signed, Sign.char]

/-- A sum is cut into its terms, each with its sign. -/
theorem termTexts_joinSigned {terms : List (List Char × Sign)} (hterms : ∀ t ∈ terms, IsTermText t.1) :
    termTexts (joinSigned terms) = terms.map signed := by
  rw [termTexts_of_unbroken fun t ht => (hterms t ht).isUnbroken]
  cases terms with
  | nil => rfl
  | cons t terms =>
    have hminus : '-' ∉ t.1.head? := fun hmem => ((hterms t List.mem_cons_self).unsigned '-' (List.mem_of_mem_head? hmem)).2 rfl
    rw [signedTexts, if_neg (hminus ·.2), List.map_cons]

/-! ### The characters of an arrangement -/

/-- Cutting loses nothing. -/
theorem flatten_cutTerms (depth : Int) (reversed cs : List Char) : (cutTerms depth reversed cs).flatten = reversed.reverse ++ cs := by
  induction cs generalizing depth reversed with
  | nil =>
    rw [cutTerms]
    split_ifs with hempty
    · rw [List.isEmpty_iff.mp hempty]
      rfl
    · simp
  | cons c cs ih =>
    rw [cutTerms]
    split_ifs
    · rw [List.flatten_cons, ih]
      rfl
    · rw [ih, List.reverse_cons, List.append_assoc, List.singleton_append]

theorem mem_signTerm {c : Char} (hc : c ≠ '+') (cs : List Char) : c ∈ signTerm cs ↔ c ∈ cs := by
  unfold signTerm
  split
  · rfl
  · rfl
  · rw [List.mem_cons, or_iff_right hc]

theorem mem_termTexts {c : Char} (hc : c ≠ '+') (cs : List Char) : (∃ t ∈ termTexts cs, c ∈ t) ↔ c ∈ cs := by
  have hcut := flatten_cutTerms 0 [] cs
  rw [List.reverse_nil, List.nil_append] at hcut
  simp only [termTexts, List.mem_map, exists_exists_and_eq_and, mem_signTerm hc]
  rw [← List.mem_flatten, hcut]

/-- A character that is no blank and no sign of a product or a term is in both or neither of two texts of one arrangement. -/
theorem mem_iff_of_sameArrangement {a b : List Char} (h : sameArrangement a b = true) {c : Char} (hblank : isBlank c = false)
    (hstar : c ≠ '*') (hplus : c ≠ '+') : c ∈ a ↔ c ∈ b := by
  have hbare (cs : List Char) : c ∈ bareText cs ↔ c ∈ cs := by simp [bareText, hblank, hstar]
  simp only [sameArrangement, Bool.or_eq_true, beq_iff_eq] at h
  rcases h with (rfl | hsame) | hsorted
  · rfl
  · rw [← hbare a, hsame, hbare b]
  · have hperm : (termTexts (bareText a)).Perm (termTexts (bareText b)) :=
      (sortTexts_perm _).symm.trans (hsorted ▸ sortTexts_perm _)
    rw [← hbare a, ← hbare b, ← mem_termTexts hplus, ← mem_termTexts hplus]
    simp only [hperm.mem_iff]

/-- Sums of the same terms have the same arrangement, in whatever order the terms are written. -/
theorem sameArrangement_of_perm {cs ds : List Char} {terms terms' : List (List Char × Sign)} (h : terms.Perm terms')
    (hterms : ∀ t ∈ terms, IsTermText t.1) (hcs : bareText cs = joinSigned terms) (hds : bareText ds = joinSigned terms') :
    sameArrangement cs ds = true := by
  have hsorted := sortTexts_eq_of_perm (h.map signed)
  rw [sameArrangement, hcs, hds, termTexts_joinSigned hterms, termTexts_joinSigned fun t ht => hterms t (h.symm.subset ht), hsorted,
    beq_self_eq_true, Bool.or_true]

end AlgebraTutor.Text
