import AlgebraTutor.Proofs.Reader.Lexeme
import AlgebraTutor.Proofs.Text.Stars
import AlgebraTutor.Reader.Expression

/-!
# Reading a whole text

What it takes for a text to be read as a tree, stage by stage: it is not empty, holds allowed characters only, is cut
into lexemes with balanced parentheses, and the tokens with every product and application written out are a phrase that
stands for the tree.
-/

namespace AlgebraTutor.Reader

theorem strangeCharacters_eq_nil_iff {cs : List Char} : strangeCharacters cs = [] ↔ ∀ c ∈ cs, isAllowed c = true := by
  rw [strangeCharacters, List.eq_nil_iff_forall_not_mem]
  simp only [Text.mem_foldl_insertLetter, List.mem_filter, List.not_mem_nil, or_false, not_and, Bool.not_eq_true',
    Bool.not_eq_false]

/-- The lexemes of a plain text with its products of variables spelled out. -/
def LexedAs (cs : List Char) (ls : List Lexeme) : Prop :=
  Lexed (Text.spellProducts (Text.variableLetters cs) cs) ls

theorem mark?_of_lexeme? {cs rest : List Char} {m : Mark} (h : lexeme? cs = some (.mark m, rest)) :
    mark? cs = some (m, rest) := by
  unfold lexeme? at h
  split at h
  · simp at h
  · split at h
    · simp_all
    · split at h
      · split at h <;> simp at h
      · simp at h

theorem eq_stars_of_mark? {cs rest : List Char} (h : mark? cs = some (.doubleStar, rest)) : cs = '*' :: '*' :: rest := by
  unfold mark? at h
  split at h
  · simpa using h
  · simp at h
  · simp at h
  · obtain ⟨m, hm, heq⟩ := Option.map_eq_some_iff.mp h
    obtain rfl := (Prod.mk.inj heq).1
    unfold markOf? at hm
    split_ifs at hm <;> cases hm
  · simp at h

theorem Lexed.no_power {cs : List Char} {ls : List Lexeme} (h : Lexed cs ls) (hcs : cs.IsChain Text.Apart) :
    Lexeme.mark .doubleStar ∉ ls := by
  induction h with
  | nil => simp
  | blank _ _ ih => exact ih hcs.tail
  | @lexeme cs rest l ls hlexeme _ ih =>
    obtain ⟨front, -, rfl⟩ := shortened_lexeme hlexeme
    rw [List.mem_cons, not_or]
    refine ⟨?_, ih hcs.right_of_append⟩
    rintro rfl
    rw [eq_stars_of_mark? (mark?_of_lexeme? hlexeme)] at hcs
    exact (List.isChain_cons_cons.mp hcs).1 rfl rfl

/-- Where no two stars stand side by side, no power is written with them. -/
theorem LexedAs.no_power {cs : List Char} {ls : List Lexeme} (h : LexedAs cs ls)
    (hcs : Text.containsChars ['*', '*'] cs = false) : Lexeme.mark .doubleStar ∉ ls :=
  Lexed.no_power h (Text.isChain_apart_spellProducts (Text.isChain_apart_iff.mpr hcs))

/-- The phrase that the lexemes of a plain text spell. -/
def SpellsPhrase (cs : List Char) (ls : List Lexeme) (p : Phrase) : Prop :=
  ∃ ts, applications? (insertProducts false (spell (Text.variableLetters cs) false ls)) = some ts ∧
    Phrase.ofTokens? ts = some p

/-- A plain text is read as the tree that the phrase of its lexemes stands for. -/
theorem ofText_of_lexed {text : String} {cs : List Char} (hcs : Text.plain text.toList = cs) (hne : cs ≠ [])
    (hallowed : ∀ c ∈ cs, isAllowed c = true) {ls : List Lexeme} (hls : LexedAs cs ls) (hbalanced : isBalanced ls = true)
    {p : Phrase} (hphrase : (applications? (insertProducts false (spell (Text.variableLetters cs) false ls))).bind
      Phrase.ofTokens? = some p) : Tree.ofText text = treeOf text (Text.variableLetters cs) p := by
  have hp : phrase? (Text.variableLetters cs) cs = some p := by
    rw [phrase?, tokens?, lexemes?_eq_some_iff.mpr hls, Option.bind_some, if_pos hbalanced, Option.bind_some, hphrase]
  simp [Tree.ofText, hcs, hne, strangeCharacters_eq_nil_iff.mpr hallowed, hp]

theorem ofText_eq_ok_iff {text : String} {cs : List Char} (hcs : Text.plain text.toList = cs) {t : Tree} :
    Tree.ofText text = .ok t ↔
      cs ≠ [] ∧ (∀ c ∈ cs, isAllowed c = true) ∧ ∃ ls, LexedAs cs ls ∧ isBalanced ls = true ∧
        ∃ p, SpellsPhrase cs ls p ∧ treeOf text (Text.variableLetters cs) p = .ok t := by
  constructor
  · intro hread
    simp only [Tree.ofText, hcs] at hread
    split at hread
    · simp at hread
    · rename_i hne
      split at hread
      · simp at hread
      · rename_i hstrange
        split at hread
        · simp at hread
        · rename_i p hphrase
          obtain ⟨ts, htokens, happlied⟩ := Option.bind_eq_some_iff.mp hphrase
          obtain ⟨ls, hls, hspelled⟩ := Option.bind_eq_some_iff.mp htokens
          rw [Option.ite_none_right_eq_some] at hspelled
          obtain ⟨hbalanced, heq⟩ := hspelled
          obtain rfl := Option.some.inj heq
          exact ⟨by simpa using hne, strangeCharacters_eq_nil_iff.mp (by simpa using hstrange), ls,
            lexemes?_eq_some_iff.mp hls, hbalanced, p, Option.bind_eq_some_iff.mp happlied, hread⟩
  · rintro ⟨hne, hallowed, ls, hls, hbalanced, p, hphrase, ht⟩
    rw [ofText_of_lexed hcs hne hallowed hls hbalanced (Option.bind_eq_some_iff.mpr hphrase), ht]

end AlgebraTutor.Reader
