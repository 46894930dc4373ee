import AlgebraTutor.Proofs.Reader.Parens
import AlgebraTutor.Proofs.Reader.Split

/-!
# The difference the other way round

Two texts are put in parentheses and joined by a minus, one way or the other. If the parentheses of either match and no power
is written with stars, both ways can be read or neither, and what is read differs in the order of the two sides alone. The
texts need not be readable by themselves.
-/

namespace AlgebraTutor

namespace Reader

/-- The difference of two lexed texts is cut into the lexemes of the texts. -/
theorem exists_lexed_of_difference {cs ds : List Char} {whole : List Lexeme} (h : Lexed (differenceChars cs ds) whole) :
    ∃ ls ls', whole = differenceLexemes ls ls' ∧ Lexed cs ls ∧ Lexed ds ls' := by
  have hblank {cs : List Char} {ls : List Lexeme} (h : Lexed (' ' :: cs) ls) : Lexed cs ls := by
    cases h with
    | blank _ h => exact h
    | lexeme hlexeme _ => simp [lexeme?_eq_none_of_blank] at hlexeme
  obtain ⟨_, rfl, hopen⟩ := Lexed.of_cons (m := .openParen) rfl (by decide) h
  obtain ⟨ls, _, rfl, hls, hclose⟩ := @Lexed.of_append ')' _ _ _ (by decide) (by decide) hopen
  obtain ⟨_, rfl, hbehind⟩ := Lexed.of_cons (m := .closeParen) rfl (by decide) hclose
  obtain ⟨_, rfl, hminus⟩ := Lexed.of_cons (m := .minus) rfl (by decide) (hblank hbehind)
  obtain ⟨_, rfl, hopen'⟩ := Lexed.of_cons (m := .openParen) rfl (by decide) (hblank hminus)
  obtain ⟨ls', _, rfl, hls', hclose'⟩ := @Lexed.of_append ')' _ _ _ (by decide) (by decide) hopen'
  obtain ⟨_, rfl, hend⟩ := Lexed.of_cons (m := .closeParen) rfl (by decide) hclose'
  cases hend with
  | nil => exact ⟨ls, ls', rfl, hls, hls'⟩
  | lexeme hlexeme _ => simpa using (shortened_lexeme hlexeme).length_lt

/-- The sides of a difference whose parentheses match can be exchanged. -/
theorem ReadsText.exchange {cs ds : List Char} {d : Tree} (h : ReadsText .powers (differenceChars cs ds) d)
    (hcs : closes 0 (parens cs) = true) (hds : closes 0 (parens ds) = true) :
    ∃ t u, d = .binary .sub t u ∧ ReadsText .powers (differenceChars ds cs) (.binary .sub u t) := by
  obtain ⟨whole, hwhole, hbalanced, hreads⟩ := h.cut
  have hmem (c : Char) : c ∈ Text.variableLetters (differenceChars cs ds) ↔ c ∈ Text.variableLetters (differenceChars ds cs) := by
    simp only [Text.mem_variableLetters, isVariableOf_difference, or_comm]
  have hletters : ∀ c ∈ Text.variableLetters (differenceChars ds cs), c.isAlpha = true :=
    fun c hc => (Text.mem_variableLetters.mp hc).isAlpha
  have hspelled : Text.spellProducts (Text.variableLetters (differenceChars ds cs)) (differenceChars ds cs) =
      Text.spellProducts (Text.variableLetters (differenceChars cs ds)) (differenceChars ds cs) := by
    refine Text.spellProducts_eq (fun c hc => ?_) fun c hc => ?_
    · exact (hmem c).mpr (Text.mem_variableLetters.mpr hc)
    · exact Text.mem_variableLetters.mpr hc
  rw [LexedAs, spellProducts_difference] at hwhole
  obtain ⟨ls, ls', rfl, hls, hls'⟩ := exists_lexed_of_difference hwhole
  obtain ⟨t, u, rfl, ht, hu⟩ := hreads.of_difference
    (by rw [hls.closes_spell, parens_spellProducts, hcs]) (by rw [hls'.closes_spell, parens_spellProducts, hds])
  refine ⟨t, u, rfl, by simp [differenceChars], fun c hc => h.allowed c ?_, differenceLexemes ls' ls, ?_, ?_, ?_⟩
  · simp only [differenceChars, List.mem_cons, List.mem_append, List.not_mem_nil, or_false] at hc ⊢
    tauto
  · rw [LexedAs, hspelled, spellProducts_difference]
    exact lexed_difference hls' hls
  · simp only [isBalanced, beq_iff_eq, differenceLexemes, List.count_cons, List.count_append] at hbalanced ⊢
    simp at hbalanced ⊢
    omega
  · exact (hu.mono (fun c hc => (hmem c).mp hc) hletters).difference (ht.mono (fun c hc => (hmem c).mp hc) hletters)

/-- A text that can be put in parentheses: no blanks are around it, no power in it is written with stars, and its parentheses
match. -/
structure IsGroupable (text : String) : Prop where
  trimmed : Text.trimChars text.toList = text.toList
  noPower : Text.containsChars ['*', '*'] (Text.plain text.toList) = false
  closed : closes 0 (parens (Text.plain text.toList)) = true

theorem isChain_apart_difference {cs ds : List Char} (hcs : cs.IsChain Text.Apart) (hds : ds.IsChain Text.Apart) :
    (differenceChars cs ds).IsChain Text.Apart := by
  have happend {c : Char} (hc : c ≠ '*') {cs more : List Char} (hcs : cs.IsChain Text.Apart)
      (hmore : more.IsChain Text.Apart) : (cs ++ c :: more).IsChain Text.Apart :=
    List.isChain_append.mpr ⟨hcs, List.isChain_cons.mpr ⟨fun _ _ h => absurd h hc, hmore⟩,
      fun _ _ d hd _ => by obtain rfl := Option.some.inj hd; exact hc⟩
  have hcons {c : Char} (hc : c ≠ '*') {more : List Char} (hmore : more.IsChain Text.Apart) : (c :: more).IsChain Text.Apart :=
    @happend c hc [] more .nil hmore
  refine hcons (by decide) (happend (by decide) hcs ?_)
  exact hcons (by decide) (hcons (by decide) (hcons (by decide) (hcons (by decide) (happend (by decide) hds .nil))))

end Reader

open Reader in
/-- The difference of two texts can be read both ways or neither way, and the trees differ in the order of their sides. -/
theorem Tree.ofText_difference_exchange {a b : String} (ha : IsGroupable a) (hb : IsGroupable b) {d : Tree}
    (hd : Tree.ofText (Canonical.differenceText a b) = .ok d) :
    ∃ t u, d = .binary .sub t u ∧ Tree.ofText (Canonical.differenceText b a) = .ok (.binary .sub u t) := by
  have hplain {a b : String} (ha : IsGroupable a) (hb : IsGroupable b) :
      Text.plain (Canonical.differenceText a b).toList = differenceChars (Text.plain a.toList) (Text.plain b.toList) := by
    rw [toList_differenceText, plain_difference ha.trimmed hb.trimmed]
  have hpower := isChain_apart_difference (Text.isChain_apart_iff.mpr ha.noPower) (Text.isChain_apart_iff.mpr hb.noPower)
  have hreads := ReadsText.of_no_power hd (by rw [hplain ha hb]; exact Text.isChain_apart_iff.mp hpower)
  rw [hplain ha hb] at hreads
  obtain ⟨t, u, rfl, hswapped⟩ := hreads.exchange ha.closed hb.closed
  rw [← hplain hb ha] at hswapped
  exact ⟨t, u, rfl, hswapped.ofText⟩

end AlgebraTutor
