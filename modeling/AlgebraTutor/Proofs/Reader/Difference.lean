import AlgebraTutor.Canonical.Form
import AlgebraTutor.Proofs.Reader.Beside
import AlgebraTutor.Proofs.Reader.RespelledLevel
import AlgebraTutor.Proofs.Reader.Spelling
import AlgebraTutor.Proofs.Reader.Text
import AlgebraTutor.Proofs.Text.Display

/-!
# Reading the difference of two texts

Two texts that are read as trees are put in parentheses and joined by a minus, and the whole is read again. The tree of the
whole is the difference of the two trees: the letters that either text treats as its variables are variables of the whole,
and nothing in one pair of parentheses reaches into the other. That much is so if each of the texts is free of functions or of
double stars; where both meet, the power of a function is moved behind its argument, wherever that is found.
-/

namespace AlgebraTutor

namespace Reader

open Phrase (Rule Derives multiplicative?)

/-- What a text may be free of, so that it is read alike next to another: functions, or powers written with stars. -/
inductive Omission
  | functions
  | powers

/-- The lexemes are free of it. -/
def Omission.Holds : Omission → List Lexeme → Prop
  | .functions, ls => ∀ f ∈ Text.functionNames, Lexeme.word f.toList ∉ ls
  | .powers, ls => Lexeme.mark .doubleStar ∉ ls

/-- With the given variables, the lexemes are read as the tree, and they are free of something. -/
structure Reads (o : Omission) (vars : List Char) (ls : List Lexeme) (t : Tree) : Prop where
  noDot : Lexeme.mark .dot ∉ ls
  omits : o.Holds ls
  derived : ∃ ts p, applications? (insertProducts false (spell vars false ls)) = some ts ∧
    Derives .sum (grammarTokens ts) p [] ∧ ∀ text, treeOf text vars p = .ok t

section Reads

variable {o : Omission} {vars more : List Char} {ls ls' : List Lexeme} {t u : Tree} {ts ts' : List Token}

theorem power_not_mem_spell (hpower : Lexeme.mark .doubleStar ∉ ls) :
    Token.mark .doubleStar ∉ insertProducts false (spell vars false ls) := by
  rw [mem_insertProducts (by simp)]
  intro hmem
  rcases mem_spell_cases hmem with ⟨hleaf, -⟩ | hmark | ⟨m, hm, heq⟩
  · simp [isLeaf] at hleaf
  · simp at hmark
  · exact hpower (Token.mark.inj heq ▸ hm)

theorem finish_not_mem_insertProducts : Token.finish ∉ insertProducts false (spell vars false ls) := by
  rw [mem_insertProducts (by simp)]
  exact finish_not_mem_spell

/-- There is no implicit application to write out where neither a dot nor a function occurs. -/
theorem applications?_spell (hdot : Lexeme.mark .dot ∉ ls) (hfree : ∀ f ∈ Text.functionNames, Lexeme.word f.toList ∉ ls)
    (hclosed : closes 0 (spell vars false ls) = true) :
    applications? (insertProducts false (spell vars false ls)) = some (insertProducts false (spell vars false ls)) :=
  applications?_of_applied (by rwa [closes_insertProducts]) finish_not_mem_insertProducts
    (applied_insertProducts (applied_spell (.singleton _) hdot hfree))

theorem closes_of_applications?_spell (happly : applications? (insertProducts false (spell vars false ls)) = some ts) :
    closes 0 (spell vars false ls) = true := by
  rw [← closes_insertProducts 0 false]
  exact closes_of_applications? happly

/-- A text that is read as a tree holds no dot. -/
theorem dot_not_mem_of_treeOf {text : String} {p : Phrase}
    (happly : applications? (insertProducts false (spell vars false ls)) = some ts) (hphrase : Phrase.ofTokens? ts = some p)
    (hread : treeOf text vars p = .ok t) : Lexeme.mark .dot ∉ ls := by
  have hderives := Phrase.derives_of_ofTokens? hphrase (isProper_of_treeOf hread)
  have hleaves {v : Token} (hv : Phrase.isContent v = true) : v ∈ grammarTokens ts ↔ v ∈ p.leaves := by
    simpa [Rule.leaves] using hderives.mem_iff hv
  intro hmem
  have hts : Token.mark .dot ∈ ts := by
    rw [mem_applications? happly rfl (by simp), mem_insertProducts (by simp)]
    exact mem_spell_of_mark hmem
  rcases dot_mem_grammarTokens hts with hmark | hmark
  · exact Phrase.mark_not_mem_leaves p _ ((hleaves rfl).mp hmark)
  · exact Phrase.mark_not_mem_leaves p _ ((hleaves rfl).mp hmark)

/-- A text that is read as a tree without calls holds no function. -/
theorem omits_functions {text : String} {p : Phrase}
    (happly : applications? (insertProducts false (spell vars false ls)) = some ts) (hphrase : Phrase.ofTokens? ts = some p)
    (hread : treeOf text vars p = .ok t) (hfree : t.CallFree) : Omission.functions.Holds ls := by
  intro f hf hmem
  refine function_not_mem_leaves hread hfree hf ?_
  exact (mem_leaves_iff happly hphrase (isProper_of_treeOf hread) rfl (by simp)).mpr (mem_spell_of_function hf hmem)

/-- Further variables do not change where implicit applications are written. -/
theorem Omission.Holds.respelled (homits : o.Holds ls) (hdot : Lexeme.mark .dot ∉ ls) (hsub : ∀ c ∈ vars, c ∈ more)
    (hletters : ∀ c ∈ more, c.isAlpha = true) (happly : applications? (insertProducts false (spell vars false ls)) = some ts)
    (hopens : ts.IsChain OpensOperand) :
    ∃ us, applications? (insertProducts false (spell more false ls)) = some us ∧ Respelled more ts us := by
  have hspell : Respelled more (spell vars false ls) (spell more false ls) := respelled_spell hsub hletters false ls
  have hproducts := hspell.insertProducts (dot_not_mem_spell hdot)
  cases o with
  | functions =>
    have hclosed := closes_of_applications?_spell happly
    obtain rfl := Option.some.inj ((applications?_spell hdot homits hclosed).symm.trans happly)
    exact ⟨_, applications?_spell hdot homits ((hspell.closes_eq 0).trans hclosed), hproducts⟩
  | powers =>
    have hends : (insertProducts false (spell more false ls)).IsChain EndsThere :=
      isChain_endsThere (IsEnclosed.spell false ls).chain (dot_not_mem_spell hdot)
    exact hproducts.applications? hends (power_not_mem_spell homits) finish_not_mem_insertProducts happly hopens

/-- Further variables do not change what is read. -/
theorem Reads.mono (h : Reads o vars ls t) (hsub : ∀ c ∈ vars, c ∈ more) (hletters : ∀ c ∈ more, c.isAlpha = true) :
    Reads o more ls t := by
  obtain ⟨ts, p, happly, hp, ht⟩ := h.derived
  obtain ⟨us, happly', hrespelled⟩ :=
    h.omits.respelled h.noDot hsub hletters happly (isChain_opensOperand (hp.opens .nil))
  obtain ⟨q, rest, hq, hrest, hderives⟩ := hp.respelled hsub .sum hrespelled.grammarTokens
  cases hrest
  exact ⟨h.noDot, h.omits, us, q, happly', hderives, fun text => hq.tree (ht text)⟩

/-- The lexemes of two texts in parentheses with a minus between them. -/
def differenceLexemes (ls ls' : List Lexeme) : List Lexeme :=
  .mark .openParen :: (ls ++ .mark .closeParen :: .mark .minus :: .mark .openParen :: (ls' ++ [.mark .closeParen]))

theorem spell_differenceLexemes :
    spell vars false (differenceLexemes ls ls') = differenceTokens (spell vars false ls) (spell vars false ls') := by
  rw [differenceLexemes, spell, spell_append, spell, spell, spell_append]
  rfl

theorem insertProducts_difference (ts us : List Token) :
    insertProducts false (differenceTokens ts us) = differenceTokens (insertProducts false ts) (insertProducts false us) := by
  rw [differenceTokens, insertProducts_mark_cons (by simp) (by simp), insertProducts_append (by simp), insertProducts_cons,
    insertProducts_mark_cons (by simp) (by simp), insertProducts_mark_cons (by simp) (by simp),
    insertProducts_append (by simp)]
  rfl

theorem grammarTokens_difference (ts us : List Token) :
    grammarTokens (differenceTokens ts us) = differenceTokens (grammarTokens ts) (grammarTokens us) := by
  have hcons {t : Token} (hsplit : splitMark t = [t]) (ht : standsAlone t = true) (vs : List Token) :
      grammarTokens (t :: vs) = t :: grammarTokens vs := grammarTokens_append hsplit ht [] vs
  rw [differenceTokens, hcons rfl rfl, grammarTokens_append rfl rfl, hcons rfl rfl, hcons rfl rfl, grammarTokens_append rfl rfl]
  rfl

theorem Omission.Holds.difference (h : o.Holds ls) (h' : o.Holds ls') : o.Holds (differenceLexemes ls ls') := by
  cases o with
  | functions =>
    intro f hf
    simp [differenceLexemes, h f hf, h' f hf]
  | powers => simpa [Omission.Holds, differenceLexemes] using And.intro h h'

/-- In parentheses of their own, lexemes that are free of something are applied as they are by themselves. -/
theorem Omission.Holds.appliesAlone (homits : o.Holds ls) (hdot : Lexeme.mark .dot ∉ ls)
    (happly : applications? (insertProducts false (spell vars false ls)) = some ts) :
    AppliesAlone (insertProducts false (spell vars false ls)) ts := by
  cases o with
  | functions =>
    have hclosed := closes_of_applications?_spell happly
    obtain rfl := Option.some.inj ((applications?_spell hdot homits hclosed).symm.trans happly)
    exact appliesAlone_of_applied (by rwa [closes_insertProducts]) finish_not_mem_insertProducts
      (applied_insertProducts (applied_spell (.singleton _) hdot homits))
  | powers => exact appliesAlone_of_no_power (power_not_mem_spell homits) finish_not_mem_insertProducts happly

/-- Implicit applications are written in the difference of two texts as in the texts. -/
theorem Omission.Holds.applications?_difference {o' : Omission} (h : o.Holds ls) (h' : o'.Holds ls')
    (hdot : Lexeme.mark .dot ∉ ls) (hdot' : Lexeme.mark .dot ∉ ls')
    (happly : applications? (insertProducts false (spell vars false ls)) = some ts)
    (happly' : applications? (insertProducts false (spell vars false ls')) = some ts') :
    applications? (insertProducts false (spell vars false (differenceLexemes ls ls'))) = some (differenceTokens ts ts') := by
  rw [spell_differenceLexemes, insertProducts_difference]
  exact (h.appliesAlone hdot happly).applications?_difference (h'.appliesAlone hdot' happly')

/-- The difference of what is read is read, whatever either part is free of. -/
theorem Reads.derived_difference {o' : Omission} (h : Reads o vars ls t) (h' : Reads o' vars ls' u) :
    ∃ ts p, applications? (insertProducts false (spell vars false (differenceLexemes ls ls'))) = some ts ∧
      Derives .sum (grammarTokens ts) p [] ∧ ∀ text, treeOf text vars p = .ok (.binary .sub t u) := by
  obtain ⟨ts, p, happly, hp, ht⟩ := h.derived
  obtain ⟨us, q, happly', hq, hu⟩ := h'.derived
  refine ⟨differenceTokens ts us, .binary .sub p q, ?_, ?_, fun text => ?_⟩
  · exact h.omits.applications?_difference h'.omits h.noDot h'.noDot happly happly'
  · rw [grammarTokens_difference]
    have hright : Derives .product (.mark .openParen :: (grammarTokens us ++ [.mark .closeParen])) q [] :=
      .product (.base (.paren (hq.append []) ⟨by simp, by simp⟩) (by simp)) (.productEnd (by simp))
    exact .sum (.product (.base (.paren (hp.append _) ⟨by simp, by simp⟩) (by simp)) (.productEnd (by simp [multiplicative?])))
      (.sumStep rfl hright (.sumEnd (by simp)))
  · exact treeOf_binary_eq_ok_iff.mpr ⟨.sub, rfl, t, ht text, u, hu text, rfl⟩

theorem Reads.difference (h : Reads o vars ls t) (h' : Reads o vars ls' u) :
    Reads o vars (differenceLexemes ls ls') (.binary .sub t u) :=
  ⟨by simp [differenceLexemes, h.noDot, h'.noDot], h.omits.difference h'.omits, h.derived_difference h'⟩

end Reads

/-! ### Plain texts -/

/-- The characters of two texts in parentheses with a minus between them. -/
def differenceChars (cs ds : List Char) : List Char :=
  '(' :: (cs ++ ')' :: ' ' :: '-' :: ' ' :: '(' :: (ds ++ [')']))

theorem toList_differenceText (a b : String) :
    (Canonical.differenceText a b).toList = differenceChars a.toList b.toList := by
  simp [Canonical.differenceText, differenceChars]

theorem plain_difference {cs ds : List Char} (hcs : Text.trimChars cs = cs) (hds : Text.trimChars ds = ds) :
    Text.plain (differenceChars cs ds) = differenceChars (Text.plain cs) (Text.plain ds) := by
  have htrim (us : List Char) : Text.trimChars ('(' :: (us ++ [')'])) = '(' :: (us ++ [')']) := by
    have hbegin : Text.isBlank '(' = false := by decide
    have hend : Text.isBlank ')' = false := by decide
    simp [Text.trimChars, hbegin, hend]
  have hdifference (us vs : List Char) : differenceChars us vs =
      '(' :: ((us ++ ')' :: ' ' :: '-' :: ' ' :: '(' :: vs) ++ [')']) := by
    simp [differenceChars]
  have hopen : Text.isSeparator '(' = true := by decide
  have hclose : Text.isSeparator ')' = true := by decide
  have hblank : Text.isSeparator ' ' = true := by decide
  have hminus : Text.isSeparator '-' = true := by decide
  have hspelling : (differenceChars cs ds).flatMap Text.plainSpelling =
      differenceChars (cs.flatMap Text.plainSpelling) (ds.flatMap Text.plainSpelling) := by
    simp [differenceChars, Text.plainSpelling]
  have hpi (us vs : List Char) : Text.lowerPi false (differenceChars us vs) =
      differenceChars (Text.lowerPi false us) (Text.lowerPi false vs) := by
    simp [differenceChars, Text.lowerPi_separator, Text.lowerPi_append, hopen, hclose, hblank, hminus,
      Text.lowerPi.eq_1]
  have hoff (us vs : List Char) : Text.setOffLetters (differenceChars us vs) =
      differenceChars (Text.setOffLetters us) (Text.setOffLetters vs) := by
    simp [differenceChars, Text.setOffLetters_separator, Text.setOffLetters_append, hopen, hclose, hblank, hminus,
      Text.setOffLetters.eq_1]
  rw [Text.plain, hdifference, htrim, ← hdifference, hspelling, hpi, hoff, Text.plain, Text.plain, hcs, hds]

theorem lexed_difference {cs ds : List Char} {ls ls' : List Lexeme} (hcs : Lexed cs ls) (hds : Lexed ds ls') :
    Lexed (differenceChars cs ds) (differenceLexemes ls ls') := by
  have hopen {more : List Char} {ls : List Lexeme} (h : Lexed more ls) : Lexed ('(' :: more) (.mark .openParen :: ls) :=
    .lexeme rfl h
  have hclose {more : List Char} {ls : List Lexeme} (h : Lexed more ls) : Lexed (')' :: more) (.mark .closeParen :: ls) :=
    .lexeme rfl h
  have hminus {more : List Char} {ls : List Lexeme} (h : Lexed more ls) : Lexed ('-' :: more) (.mark .minus :: ls) :=
    .lexeme rfl h
  have hsecond := hopen (hds.append (by simp [closers]) (by simp) (hclose .nil))
  exact hopen (hcs.append (by simp [closers]) (by simp) (hclose (.blank (.inl rfl) (hminus (.blank (.inl rfl) hsecond)))))

theorem Reads.of_spellsPhrase {o : Omission} {text : String} {cs : List Char} {ls : List Lexeme} {p : Phrase} {t : Tree}
    (hphrase : SpellsPhrase cs ls p) (hread : treeOf text (Text.variableLetters cs) p = .ok t) (homits : o.Holds ls) :
    Reads o (Text.variableLetters cs) ls t := by
  obtain ⟨ts, happly, hphrase⟩ := hphrase
  exact ⟨dot_not_mem_of_treeOf happly hphrase hread, homits, ts, p, happly,
    Phrase.derives_of_ofTokens? hphrase (isProper_of_treeOf hread), fun _ => treeOf_of_text hread⟩

/-- A plain text that is read as a tree, and is free of something. -/
structure ReadsText (o : Omission) (cs : List Char) (t : Tree) : Prop where
  nonempty : cs ≠ []
  allowed : ∀ c ∈ cs, isAllowed c = true
  cut : ∃ ls, LexedAs cs ls ∧ isBalanced ls = true ∧ Reads o (Text.variableLetters cs) ls t

namespace ReadsText

variable {text : String} {t : Tree} {o : Omission}

/-- What is read as a tree without calls is free of functions. -/
theorem of_callFree (hread : Tree.ofText text = .ok t) (hfree : t.CallFree) :
    ReadsText .functions (Text.plain text.toList) t := by
  obtain ⟨hne, hallowed, ls, hls, hbalanced, p, hphrase, htree⟩ := (ofText_eq_ok_iff rfl).mp hread
  obtain ⟨ts, happly, hspelled⟩ := hphrase
  exact ⟨hne, hallowed, ls, hls, hbalanced,
    .of_spellsPhrase ⟨ts, happly, hspelled⟩ htree (omits_functions happly hspelled htree hfree)⟩

theorem of_no_power (hread : Tree.ofText text = .ok t)
    (hpower : Text.containsChars ['*', '*'] (Text.plain text.toList) = false) :
    ReadsText .powers (Text.plain text.toList) t := by
  obtain ⟨hne, hallowed, ls, hls, hbalanced, p, hphrase, htree⟩ := (ofText_eq_ok_iff rfl).mp hread
  exact ⟨hne, hallowed, ls, hls, hbalanced, .of_spellsPhrase hphrase htree (hls.no_power hpower)⟩

theorem ofText (h : ReadsText o (Text.plain text.toList) t) : Tree.ofText text = .ok t := by
  obtain ⟨ls, hls, hbalanced, hreads⟩ := h.cut
  obtain ⟨ts, p, happly, hp, ht⟩ := hreads.derived
  exact (ofText_eq_ok_iff rfl).mpr ⟨h.nonempty, h.allowed, ls, hls, hbalanced, p,
    ⟨ts, happly, Phrase.ofTokens?_of_derives hp⟩, ht text⟩

end ReadsText

theorem isVariableOf_difference {c : Char} {cs ds : List Char} :
    Text.IsVariableOf c (differenceChars cs ds) ↔ Text.IsVariableOf c cs ∨ Text.IsVariableOf c ds := by
  have hnil : ¬Text.IsVariableOf c [] := by simp [Text.IsVariableOf, Text.letterRuns]
  simp [differenceChars, Text.isVariableOf_other, Text.isVariableOf_append, hnil]

theorem spellProducts_difference (vars cs ds : List Char) :
    Text.spellProducts vars (differenceChars cs ds) =
      differenceChars (Text.spellProducts vars cs) (Text.spellProducts vars ds) := by
  have hnil : Text.spellProducts vars [] = [] := rfl
  simp [differenceChars, Text.spellProducts_other, Text.spellProducts_append, hnil]

theorem isBalanced_difference {ls ls' : List Lexeme} (h : isBalanced ls = true) (h' : isBalanced ls' = true) :
    isBalanced (differenceLexemes ls ls') = true := by
  simp only [isBalanced, beq_iff_eq, differenceLexemes, List.count_cons, List.count_append] at h h' ⊢
  simp [h, h']
  omega

theorem lexedAs_difference {cs ds : List Char} {ls ls' : List Lexeme} (hls : LexedAs cs ls) (hls' : LexedAs ds ls') :
    LexedAs (differenceChars cs ds) (differenceLexemes ls ls') := by
  have hspelled {us : List Char} (hus : ∀ c, Text.IsVariableOf c us → Text.IsVariableOf c (differenceChars cs ds)) :
      Text.spellProducts (Text.variableLetters (differenceChars cs ds)) us =
        Text.spellProducts (Text.variableLetters us) us :=
    Text.spellProducts_eq (fun c hc => Text.mem_variableLetters.mpr hc)
      fun c hc => Text.mem_variableLetters.mpr (hus c hc)
  rw [LexedAs, spellProducts_difference, hspelled fun c hc => isVariableOf_difference.mpr (.inl hc),
    hspelled fun c hc => isVariableOf_difference.mpr (.inr hc)]
  exact lexed_difference hls hls'

theorem isAllowed_difference {cs ds : List Char} (hcs : ∀ c ∈ cs, isAllowed c = true) (hds : ∀ c ∈ ds, isAllowed c = true) :
    ∀ c ∈ differenceChars cs ds, isAllowed c = true := by
  have hmarks : ∀ c ∈ ['(', ')', ' ', '-'], isAllowed c = true := by decide
  intro c hc
  simp only [differenceChars, List.mem_cons, List.mem_append, List.not_mem_nil, or_false] at hc
  rcases hc with rfl | hc | rfl | rfl | rfl | rfl | rfl | hc | rfl
  case inr.inl => exact hcs c hc
  case inr.inr.inr.inr.inr.inr.inr.inl => exact hds c hc
  all_goals exact hmarks _ (by simp)

/-- Whatever either of two texts is free of, they are read in their difference as they are by themselves. -/
theorem ReadsText.ofText_difference {o o' : Omission} {a b : String} {t u : Tree} (ha : Text.trimChars a.toList = a.toList)
    (hb : Text.trimChars b.toList = b.toList) (ht : ReadsText o (Text.plain a.toList) t)
    (hu : ReadsText o' (Text.plain b.toList) u) : Tree.ofText (Canonical.differenceText a b) = .ok (.binary .sub t u) := by
  obtain ⟨ls, hls, hbalanced, hreads⟩ := ht.cut
  obtain ⟨ls', hls', hbalanced', hreads'⟩ := hu.cut
  have hplain : Text.plain (Canonical.differenceText a b).toList = differenceChars (Text.plain a.toList) (Text.plain b.toList) := by
    rw [toList_differenceText, plain_difference ha hb]
  have hmono {us : List Char} (hus : ∀ c, Text.IsVariableOf c us → Text.IsVariableOf c (differenceChars (Text.plain a.toList)
      (Text.plain b.toList))) : ∀ c ∈ Text.variableLetters us, c ∈ Text.variableLetters (differenceChars (Text.plain a.toList)
      (Text.plain b.toList)) :=
    fun c hc => Text.mem_variableLetters.mpr (hus c (Text.mem_variableLetters.mp hc))
  have hletters : ∀ c ∈ Text.variableLetters (differenceChars (Text.plain a.toList) (Text.plain b.toList)), c.isAlpha = true :=
    fun c hc => (Text.mem_variableLetters.mp hc).isAlpha
  have hleft := hreads.mono (hmono fun c hc => isVariableOf_difference.mpr (.inl hc)) hletters
  have hright := hreads'.mono (hmono fun c hc => isVariableOf_difference.mpr (.inr hc)) hletters
  obtain ⟨ts, p, happly, hp, hd⟩ := hleft.derived_difference hright
  refine (ofText_eq_ok_iff rfl).mpr ?_
  rw [hplain]
  exact ⟨by simp [differenceChars], isAllowed_difference ht.allowed hu.allowed, _, lexedAs_difference hls hls',
    isBalanced_difference hbalanced hbalanced', p, ⟨ts, happly, Phrase.ofTokens?_of_derives hp⟩, hd _⟩

end Reader

/-- The difference of two texts without calls is read as the difference of their trees. -/
theorem Tree.ofText_differenceText {a b : String} {t u : Tree} (ha : Text.trimChars a.toList = a.toList)
    (hb : Text.trimChars b.toList = b.toList) (ht : Tree.ofText a = .ok t) (hu : Tree.ofText b = .ok u)
    (htfree : t.CallFree) (hufree : u.CallFree) :
    Tree.ofText (Canonical.differenceText a b) = .ok (.binary .sub t u) :=
  Reader.ReadsText.ofText_difference ha hb (.of_callFree ht htfree) (.of_callFree hu hufree)

/-- Powers with double stars are written in a text, or functions applied in it, but not both. -/
def IsUnmixed (text : String) : Prop :=
  Text.containsChars ['*', '*'] (Text.plain text.toList) = false ∨ ∀ t, Tree.ofText text = .ok t → t.CallFree

open Reader in
theorem IsUnmixed.exists_readsText {text : String} {t : Tree} (h : IsUnmixed text) (hread : Tree.ofText text = .ok t) :
    ∃ o, ReadsText o (Text.plain text.toList) t := by
  rcases h with hpower | hfree
  · exact ⟨.powers, .of_no_power hread hpower⟩
  · exact ⟨.functions, .of_callFree hread (hfree t hread)⟩

/-- Unmixed texts are read in their difference as they are by themselves. -/
theorem IsUnmixed.ofText_difference {a b : String} {t u : Tree} (ha : IsUnmixed a) (hb : IsUnmixed b)
    (hatrim : Text.trimChars a.toList = a.toList) (hbtrim : Text.trimChars b.toList = b.toList) (ht : Tree.ofText a = .ok t)
    (hu : Tree.ofText b = .ok u) : Tree.ofText (Canonical.differenceText a b) = .ok (.binary .sub t u) := by
  obtain ⟨o, hreads⟩ := ha.exists_readsText ht
  obtain ⟨o', hreads'⟩ := hb.exists_readsText hu
  exact hreads.ofText_difference hatrim hbtrim hreads'

/-- The difference of two texts in which no power is written with stars is read as the difference of their trees, whatever
functions they apply and to what. -/
theorem Tree.ofText_difference_of_no_power {a b : String} {t u : Tree} (ha : Text.trimChars a.toList = a.toList)
    (hb : Text.trimChars b.toList = b.toList) (hapower : Text.containsChars ['*', '*'] (Text.plain a.toList) = false)
    (hbpower : Text.containsChars ['*', '*'] (Text.plain b.toList) = false) (ht : Tree.ofText a = .ok t)
    (hu : Tree.ofText b = .ok u) : Tree.ofText (Canonical.differenceText a b) = .ok (.binary .sub t u) :=
  Reader.ReadsText.ofText_difference ha hb (.of_no_power ht hapower) (.of_no_power hu hbpower)

/-- An applied function and an implicit product, with a letter of their own in either text. -/
theorem Tree.ofText_difference_sine :
    Tree.ofText (Canonical.differenceText "sin 2x" "xy") =
      .ok (.binary .sub (.apply (.call "sin") [.apply .mul [.const 2, .symbol "x"]]) (.apply .mul [.symbol "x", .symbol "y"])) :=
  Tree.ofText_difference_of_no_power (by decide +kernel) (by decide +kernel) (by decide +kernel) (by decide +kernel)
    (by decide +kernel) (by decide +kernel)

end AlgebraTutor
