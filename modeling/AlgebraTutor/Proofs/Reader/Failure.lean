import AlgebraTutor.Proofs.Answer
import AlgebraTutor.Proofs.Input
import AlgebraTutor.Proofs.Reader.Leaves
import AlgebraTutor.Proofs.Reader.Numeral
import AlgebraTutor.Proofs.Reader.Spelling
import AlgebraTutor.Proofs.Reader.Text

/-!
# How reading fails

Whatever a learner types, reading it fails with a report about its form, with one exception: a literal that the grammar
takes, but whose value has more digits than the limit. Such a literal does not fit into a short text.
-/

namespace AlgebraTutor

namespace Reader

open Phrase (leaves leavesAll)

/-! ### From the phrase to the tree -/

/-- The failure is a report about the form of a text, or else one of the literals has no value. -/
def FailsAs (ts : List Token) (failure : Failure) : Prop :=
  (∃ cause input, failure = .unreadable cause input) ∨
    failure = .digitLimit ∧ ∃ l, .literal l ∈ ts ∧ l.value? = none

theorem FailsAs.mono {ts us : List Token} {failure : Failure} (h : FailsAs ts failure) (hsub : ∀ t ∈ ts, t ∈ us) :
    FailsAs us failure :=
  h.imp_right fun ⟨hlimit, l, hl, hvalue⟩ => ⟨hlimit, l, hsub _ hl, hvalue⟩

theorem failsAs_unreadable {cause : ReadError} {text : String} {failure : Failure} {ts : List Token}
    (h : (.error (.unreadable cause text) : Answer Tree) = .error failure) : FailsAs ts failure :=
  .inl ⟨cause, text, (Except.error.inj h).symm⟩

theorem failsAs_operandTree? {text function : String} {args : List Phrase} {failure : Failure}
    (h : operandTree? text function args = some (.error failure)) : FailsAs (leavesAll args) failure := by
  unfold operandTree? at h
  split at h
  · split at h
    · rename_i l
      split at h
      · simp at h
      · rename_i hvalue
        refine .inr ⟨(Except.error.inj (Option.some.inj h)).symm, l, ?_, hvalue⟩
        simp [leavesAll, leaves]
    · exact failsAs_unreadable (Option.some.inj h)
  · split at h
    · split at h <;> simp at h
    · simp at h

mutual

theorem failsAs_treeOf {text : String} {vars : List Char} {p : Phrase} {failure : Failure}
    (hread : treeOf text vars p = .error failure) : FailsAs p.leaves failure := by
  match p with
  | .name n =>
    rw [treeOf] at hread
    split at hread
    · simp at hread
    · exact failsAs_unreadable hread
  | .call f args =>
    rw [treeOf] at hread
    split at hread
    · rename_i answer hoperand
      subst hread
      exact (failsAs_operandTree? hoperand).mono fun t ht => List.mem_cons_of_mem _ ht
    · split at hread
      · exact failsAs_unreadable hread
      · split at hread
        · exact failsAs_unreadable hread
        · rcases Answer.bind_eq_error_iff.mp hread with hargs | ⟨ts, -, hcall⟩
          · exact (failsAs_treesOf hargs).mono fun t ht => List.mem_cons_of_mem _ ht
          · simp [pure, Except.pure] at hcall
  | .negative p =>
    rw [treeOf] at hread
    rcases Answer.bind_eq_error_iff.mp hread with hoperand | ⟨t, -, hnegate⟩
    · exact failsAs_treeOf (p := p) hoperand
    · simp [pure, Except.pure] at hnegate
  | .positive p => exact failsAs_treeOf (p := p) (by rwa [treeOf] at hread)
  | .binary op p q =>
    rw [treeOf] at hread
    split at hread
    · exact failsAs_unreadable hread
    · rcases Answer.bind_eq_error_iff.mp hread with hleft | ⟨l, -, hread⟩
      · exact (failsAs_treeOf hleft).mono fun t ht => List.mem_append_left _ ht
      · rcases Answer.bind_eq_error_iff.mp hread with hright | ⟨r, -, hbinary⟩
        · exact (failsAs_treeOf hright).mono fun t ht => List.mem_append_right _ ht
        · simp [pure, Except.pure] at hbinary
  | .literal _ | .quoted _ | .other =>
    rw [treeOf] at hread
    exact failsAs_unreadable hread

theorem failsAs_treesOf {text : String} {vars : List Char} {ps : List Phrase} {failure : Failure}
    (hread : treesOf text vars ps = .error failure) : FailsAs (leavesAll ps) failure := by
  match ps with
  | [] => simp [treesOf] at hread
  | p :: ps =>
    rw [treesOf] at hread
    rcases Answer.bind_eq_error_iff.mp hread with hfirst | ⟨t, -, hread⟩
    · exact (failsAs_treeOf hfirst).mono fun t ht => List.mem_append_left _ ht
    · rcases Answer.bind_eq_error_iff.mp hread with hrest | ⟨ts, -, hcons⟩
      · exact (failsAs_treesOf hrest).mono fun t ht => List.mem_append_right _ ht
      · simp [pure, Except.pure] at hcons

end

/-! ### From the text to the phrase -/

/-- The literals of the phrase that a plain text spells are cut from the text, once its products are spelled out. -/
theorem isCutFrom_of_phrase? {vars cs : List Char} {p : Phrase} (hphrase : phrase? vars cs = some p) {l : Literal}
    (hl : .literal l ∈ p.leaves) : l.IsCutFrom (Text.spellProducts vars cs) ∧ l.isWellFormed = true := by
  obtain ⟨ts, htokens, happlied⟩ := Option.bind_eq_some_iff.mp hphrase
  obtain ⟨us, happly, hread⟩ := Option.bind_eq_some_iff.mp happlied
  obtain ⟨ls, hls, hspelled⟩ := Option.bind_eq_some_iff.mp htokens
  rw [Option.ite_none_right_eq_some] at hspelled
  obtain rfl := Option.some.inj hspelled.2
  obtain ⟨hgrammar, hform⟩ := Phrase.literal_of_mem_leaves hread hl
  have hwritten := (mem_applications? happly rfl (by simp)).mp ((mem_grammarTokens rfl).mp hgrammar)
  obtain ⟨isImaginary, hnumber⟩ := literal_mem_spell ((mem_insertProducts (by simp)).mp hwritten)
  exact ⟨(lexemes?_eq_some_iff.mp hls).isCutFrom hnumber, hform⟩

end Reader

/-- Reading a text fails with a report about its form, or because a literal writes a number beyond the limit; then the text
is long. -/
theorem Tree.failure_of_ofText {text : String} {failure : Failure} (hread : Tree.ofText text = .error failure) :
    (∃ cause input, failure = .unreadable cause input) ∨
      failure = .digitLimit ∧ Reader.Literal.shortestOverlong ≤ text.length := by
  simp only [Tree.ofText] at hread
  split at hread
  · exact .inl ⟨_, _, (Except.error.inj hread).symm⟩
  · split at hread
    · exact .inl ⟨_, _, (Except.error.inj hread).symm⟩
    · split at hread
      · exact .inl ⟨_, _, (Except.error.inj hread).symm⟩
      · rename_i p hphrase
        rcases Reader.failsAs_treeOf hread with hreport | ⟨hlimit, l, hl, hvalue⟩
        · exact .inl hreport
        · obtain ⟨hcut, hform⟩ := Reader.isCutFrom_of_phrase? hphrase hl
          refine .inr ⟨hlimit, ?_⟩
          -- the length itself is no measure: a text grows while its symbols and products are spelled out
          calc Reader.Literal.shortestOverlong
              ≤ _ := hcut.shortestOverlong_le hform hvalue
            _ = (Text.plain text.toList).countP Text.isNumeral := Text.countP_spellProducts _ _
            _ ≤ text.toList.countP Text.isNumeral := Text.countP_plain_le _
            _ ≤ text.toList.length := List.countP_le_length
            _ = text.length := String.length_toList

/-! ### The check of an input -/

namespace Input

theorem length_ofList_trimChars_le {cs more : List Char} (hsub : cs.Sublist more) :
    (String.ofList (Text.trimChars cs)).length ≤ more.length := by
  rw [String.length_ofList]
  exact ((Text.trimChars_sublist cs).trans hsub).length_le

theorem length_le_of_mem_sides {text side : String} {p : Input} (hp : ofText text = .ok p) (hside : side ∈ p.sides) :
    side.length ≤ text.length := by
  have htrim := Text.trimChars_sublist text.toList
  rw [← String.length_toList]
  simp only [ofText] at hp
  split_ifs at hp
  split at hp
  · obtain rfl := Except.ok.inj hp
    obtain rfl := List.mem_singleton.mp hside
    exact length_ofList_trimChars_le (List.Sublist.refl _)
  · rename_i left right hsplit
    split_ifs at hp
    obtain rfl := Except.ok.inj hp
    have hpart {part : List Char} (hpart : part ∈ [left, right]) : part.Sublist text.toList :=
      (infix_splitAtEquals (hsplit ▸ hpart)).sublist.trans htrim
    rcases List.mem_cons.mp hside with rfl | hside
    · exact length_ofList_trimChars_le (hpart (by simp))
    · obtain rfl := List.mem_singleton.mp hside
      exact length_ofList_trimChars_le (hpart (by simp))
  · simp at hp

theorem failure_of_ofText {text : String} {failure : Failure} (hp : ofText text = .error failure) :
    failure.isInputError = true := by
  simp only [ofText] at hp
  split_ifs at hp
  · rw [← Except.error.inj hp]; rfl
  · rw [← Except.error.inj hp]; rfl
  · split at hp
    · simp at hp
    · split_ifs at hp
      rw [← Except.error.inj hp]; rfl
    · rw [← Except.error.inj hp]; rfl

theorem failure_of_readAll {texts : List String} {failure : Failure} (hread : readAll texts = .error failure) :
    (∃ cause input, failure = .unreadable cause input) ∨
      failure = .digitLimit ∧ ∃ text ∈ texts, Reader.Literal.shortestOverlong ≤ text.length := by
  induction texts with
  | nil => simp [readAll] at hread
  | cons text texts ih =>
    rw [readAll] at hread
    rcases Answer.bind_eq_error_iff.mp hread with hfirst | ⟨t, -, hrest⟩
    · exact (Tree.failure_of_ofText hfirst).imp_right fun h => ⟨h.1, text, List.mem_cons_self, h.2⟩
    · rcases ih hrest with hreport | ⟨hlimit, long, hlong, hlength⟩
      · exact .inl hreport
      · exact .inr ⟨hlimit, long, List.mem_cons_of_mem _ hlong, hlength⟩

/-- The check fails with a report about the input, or because of a literal beyond the limit; then the input is long. -/
theorem failure_of_check {text : String} {failure : Failure} (hcheck : check text = .error failure) :
    failure.isInputError = true ∨ failure = .digitLimit ∧ Reader.Literal.shortestOverlong ≤ text.length := by
  rcases Answer.bind_eq_error_iff.mp hcheck with hp | ⟨p, hp, hread⟩
  · exact .inl (failure_of_ofText hp)
  · rcases Answer.bind_eq_error_iff.mp hread with hread | ⟨_, -, hpure⟩
    · rcases failure_of_readAll hread with ⟨cause, input, rfl⟩ | ⟨hlimit, side, hside, hlength⟩
      · exact .inl rfl
      · exact .inr ⟨hlimit, hlength.trans (length_le_of_mem_sides hp hside)⟩
    · simp [pure, Except.pure] at hpure

end Input

end AlgebraTutor
