import AlgebraTutor.Proofs.Reader.Marks
import AlgebraTutor.Proofs.Reader.Meaning

/-!
# Letters spelled anew are read alike

Where letters in calls of their own are spelled as words, every later stage does the same as before: products are
written at the same places, and the grammar derives a phrase with the same tree. `Derives.respelled` is the statement
for one rule, and from it follows the one for a whole text.
-/

namespace AlgebraTutor.Reader

open Phrase (Rule Derives EndsOperand)

theorem isCallable_letter (c : Char) : isCallable c.toString = false := by
  have hlength : ∀ name ∈ Text.functionNames ++ operandWords, name.toList.length ≠ 1 := by decide
  have hone : c.toString.toList.length = 1 := by simp
  rw [isCallable, Bool.or_eq_false_iff, ← Bool.not_eq_true, ← Bool.not_eq_true, List.contains_iff_mem, List.contains_iff_mem]
  exact ⟨fun h => hlength _ (List.mem_append_left _ h) hone, fun h => hlength _ (List.mem_append_right _ h) hone⟩

section Products

variable {vars : List Char} {ts us : List Token}

theorem Respelled.any_begins (h : Respelled vars ts us) : us.head?.any beginsOperand = ts.head?.any beginsOperand := by
  cases h <;> rfl

theorem Respelled.insertProducts (h : Respelled vars ts us) (hdot : Token.mark .dot ∉ ts) :
    Respelled vars (insertProducts false ts) (insertProducts false us) := by
  induction h with
  | nil => exact .nil
  | @keep ts us t hrest ih =>
    rw [List.mem_cons, not_or] at hdot
    have hafter : (t == .mark .dot) = false := by simpa using Ne.symm hdot.1
    have hsign : productSign false t us = productSign false t ts := by rw [productSign, hrest.any_begins, productSign]
    rw [insertProducts_cons, insertProducts_cons, hafter, hsign]
    exact .keep t ((Respelled.refl _).append (ih hdot.2))
  | @letter ts us c hc hrest ih =>
    have hsign : productSign false (.word c.toString) us = productSign false (.mark .closeParen) ts := by
      rw [productSign, productSign, hrest.any_begins, endsOperand, endsOperand, isCallable_letter]
      rfl
    rw [insertProducts_callOn (by decide) (by simp), insertProducts_cons, hsign]
    exact .letter hc ((Respelled.refl _).append (ih fun h => hdot (by simp [h])))

theorem Respelled.closes_eq (h : Respelled vars ts us) (depth : Nat) : closes depth us = closes depth ts := by
  induction h generalizing depth with
  | nil => rfl
  | @keep ts us t hrest ih =>
    by_cases hopen : t = .mark .openParen
    · subst hopen
      exact ih (depth + 1)
    · by_cases hclose : t = .mark .closeParen
      · subst hclose
        cases depth with
        | zero => rfl
        | succ depth => exact ih depth
      · rw [closes_cons hopen hclose, closes_cons hopen hclose, ih]
  | @letter ts us c hc hrest ih =>
    rw [closes_cons (by simp) (by simp), ih]
    cases depth <;> rfl

end Products

namespace Phrase

/-- Whatever tree the first phrase stands for among the variables `vars`, the second one stands for among the variables
`more`. -/
structure Agrees (vars more : List Char) (p q : Phrase) : Prop where
  tree : ∀ {text text' : String} {t : Tree}, treeOf text vars p = .ok t → treeOf text' more q = .ok t
  name : ∀ {n : String}, p = .name n → q = .name n
  literal : ∀ {l : Literal}, p = .literal l → q = .literal l
  quoted : ∀ {s : String}, p = .quoted s → q = .quoted s

/-- The rules go on from phrases that agree. -/
inductive Rule.Agrees (vars more : List Char) : Rule → Rule → Prop
  | sum : Agrees vars more .sum .sum
  | sumTail {p q : Phrase} (h : p.Agrees vars more q) : Agrees vars more (.sumTail p) (.sumTail q)
  | product : Agrees vars more .product .product
  | productTail {p q : Phrase} (h : p.Agrees vars more q) : Agrees vars more (.productTail p) (.productTail q)
  | factor : Agrees vars more .factor .factor
  | operand : Agrees vars more .operand .operand
  | args {f : String} {ps qs : List Phrase} (h : List.Forall₂ (Phrase.Agrees vars more) ps qs) :
    Agrees vars more (.args f ps) (.args f qs)

section Agrees

variable {vars more : List Char} {p q p' q' : Phrase}

theorem treesOf_agree {ps qs : List Phrase} (h : List.Forall₂ (Agrees vars more) ps qs) {text text' : String}
    {ts : List Tree} (hread : treesOf text vars ps = .ok ts) : treesOf text' more qs = .ok ts := by
  rw [treesOf_eq_ok_iff] at hread ⊢
  induction h generalizing ts with
  | nil => simpa using hread
  | cons hfirst _ ih =>
    cases hread with
    | cons ht hts => exact .cons (hfirst.tree ht) (ih hts)

theorem Agrees.call {ps qs : List Phrase} (h : List.Forall₂ (Agrees vars more) ps qs) (f : String) :
    (Phrase.call f ps).Agrees vars more (.call f qs) where
  tree hread := by
    rw [treeOf_call_eq_ok_iff, operandTree?_eq_ok_iff] at hread ⊢
    rcases hread with (⟨hf, l, value, rfl, hvalue⟩ | ⟨hf, s, rfl, ht⟩) | ⟨hf, hne, ts, hts, ht⟩
    · cases h with
      | cons hfirst hrest =>
        cases hrest
        exact .inl (.inl ⟨hf, l, value, by rw [hfirst.literal rfl], hvalue⟩)
    · cases h with
      | cons hfirst hrest =>
        cases hrest
        exact .inl (.inr ⟨hf, s, by rw [hfirst.quoted rfl], ht⟩)
    · refine .inr ⟨hf, ?_, ts, treesOf_agree h hts, ht⟩
      rintro rfl
      cases h
      exact hne rfl
  name := nofun
  literal := nofun
  quoted := nofun

theorem Agrees.negative (h : p.Agrees vars more q) : p.negative.Agrees vars more q.negative where
  tree hread := by
    obtain ⟨u, hu, ht⟩ := treeOf_negative_eq_ok_iff.mp hread
    exact treeOf_negative_eq_ok_iff.mpr ⟨u, h.tree hu, ht⟩
  name := nofun
  literal := nofun
  quoted := nofun

theorem Agrees.positive (h : p.Agrees vars more q) : p.positive.Agrees vars more q.positive where
  tree hread := by
    rw [treeOf] at hread ⊢
    exact h.tree hread
  name := nofun
  literal := nofun
  quoted := nofun

theorem Agrees.binary (hleft : p.Agrees vars more q) (hright : p'.Agrees vars more q') (op : Operation) :
    (Phrase.binary op p p').Agrees vars more (.binary op q q') where
  tree hread := by
    obtain ⟨o, ho, u, hu, v, hv, ht⟩ := treeOf_binary_eq_ok_iff.mp hread
    exact treeOf_binary_eq_ok_iff.mpr ⟨o, ho, u, hleft.tree hu, v, hright.tree hv, ht⟩
  name := nofun
  literal := nofun
  quoted := nofun

theorem Agrees.word (hsub : ∀ c ∈ vars, c ∈ more) (n : String) : (Phrase.name n).Agrees vars more (.name n) where
  tree hread := by
    rw [treeOf_name_eq_ok_iff] at hread ⊢
    exact ⟨hread.1, hread.2.imp_left fun ⟨c, hc, heq⟩ => ⟨c, hsub c hc, heq⟩⟩
  name := id
  literal := nofun
  quoted := nofun

theorem Agrees.letter {c : Char} (hc : c ∈ more) :
    (Phrase.call "letter" [.quoted c.toString]).Agrees vars more (.name c.toString) where
  tree hread := by
    rw [treeOf_call_eq_ok_iff, operandTree?_eq_ok_iff] at hread
    rcases hread with (⟨hf, -⟩ | ⟨-, s, hs, rfl⟩) | ⟨hf, -⟩
    · simp at hf
    · obtain rfl : c.toString = s := by simpa using hs
      exact treeOf_name_eq_ok_iff.mpr ⟨rfl, .inl ⟨c, hc, rfl⟩⟩
    · exact absurd hf (by decide)
  name := nofun
  literal := nofun
  quoted := nofun

end Agrees

/-! ### Derivations -/

theorem Derives.unique {r : Rule} {ts rest rest' : List Token} {p p' : Phrase} (h : Derives r ts p rest)
    (h' : Derives r ts p' rest') : p = p' ∧ rest = rest' := by
  have hparse := (h.parse_eq le_rfl).symm.trans (h'.parse_eq le_rfl)
  simpa using hparse

/-- The call that a single letter is. -/
theorem derives_letter {s : String} (rest : List Token) :
    Derives (.args "letter" []) (.quoted s :: .mark .closeParen :: rest) (.call "letter" [.quoted s]) rest :=
  .lastArg (.sum (.product (.base (.quoted ⟨by simp, by simp⟩) (by simp)) (.productEnd (by simp [multiplicative?])))
    (.sumEnd (by simp [additive?])))

section Respelled

variable {vars more : List Char} {ts us rest : List Token}

theorem EndsOperand.respelled (hend : EndsOperand ts) (h : Respelled more ts us) : EndsOperand us :=
  ⟨fun hhead => hend.1 (h.head?_mark hhead), fun hhead => hend.2 (h.head?_mark hhead)⟩

theorem ends_respelled {f : Token → Option Operation} (hword : ∀ w, f (.word w) = none)
    (hend : ∀ t ∈ ts.head?, f t = none) (h : Respelled more ts us) : ∀ t ∈ us.head?, f t = none := by
  cases h with
  | nil => simp
  | keep t _ => simpa using hend
  | letter => simpa using hword _

theorem respelled_operator {f : Token → Option Operation} (hword : ∀ w, f (.word w) = none) {t : Token} {op : Operation}
    (hop : f t = some op) (h : Respelled more (t :: ts) us) : ∃ us', us = t :: us' ∧ Respelled more ts us' := by
  cases h with
  | keep _ hrest => exact ⟨_, rfl, hrest⟩
  | letter => simp [hword] at hop

/-- What is derived from tokens is derived from the tokens spelled anew, up to phrases that agree. -/
theorem Derives.respelled (hsub : ∀ c ∈ vars, c ∈ more) {r r' : Rule} {p : Phrase} (h : Derives r ts p rest)
    (hr : Rule.Agrees vars more r r') (hts : Respelled more ts us) :
    ∃ q rest', p.Agrees vars more q ∧ Respelled more rest rest' ∧ Derives r' us q rest' := by
  induction h generalizing us r' with
  | sum _ _ ih₁ ih₂ =>
    cases hr
    obtain ⟨q, mid, hq, hmid, hfirst⟩ := ih₁ .product hts
    obtain ⟨q', rest', hq', hrest', hsecond⟩ := ih₂ (.sumTail hq) hmid
    exact ⟨q', rest', hq', hrest', .sum hfirst hsecond⟩
  | product _ _ ih₁ ih₂ =>
    cases hr
    obtain ⟨q, mid, hq, hmid, hfirst⟩ := ih₁ .factor hts
    obtain ⟨q', rest', hq', hrest', hsecond⟩ := ih₂ (.productTail hq) hmid
    exact ⟨q', rest', hq', hrest', .product hfirst hsecond⟩
  | sumEnd hend =>
    cases hr with
    | sumTail hleft => exact ⟨_, us, hleft, hts, .sumEnd (ends_respelled (fun _ => rfl) hend hts)⟩
  | productEnd hend =>
    cases hr with
    | productTail hleft => exact ⟨_, us, hleft, hts, .productEnd (ends_respelled (fun _ => rfl) hend hts)⟩
  | sumStep hop _ _ ih₁ ih₂ =>
    cases hr with
    | sumTail hleft =>
      obtain ⟨us, rfl, htail⟩ := respelled_operator (fun _ => rfl) hop hts
      obtain ⟨q, mid, hq, hmid, hfirst⟩ := ih₁ .product htail
      obtain ⟨q', rest', hq', hrest', hsecond⟩ := ih₂ (.sumTail (hleft.binary hq _)) hmid
      exact ⟨q', rest', hq', hrest', .sumStep hop hfirst hsecond⟩
  | productStep hop _ _ ih₁ ih₂ =>
    cases hr with
    | productTail hleft =>
      obtain ⟨us, rfl, htail⟩ := respelled_operator (fun _ => rfl) hop hts
      obtain ⟨q, mid, hq, hmid, hfirst⟩ := ih₁ .factor htail
      obtain ⟨q', rest', hq', hrest', hsecond⟩ := ih₂ (.productTail (hleft.binary hq _)) hmid
      exact ⟨q', rest', hq', hrest', .productStep hop hfirst hsecond⟩
  | negative _ ih =>
    cases hr
    obtain ⟨us, rfl, htail⟩ := hts.of_mark
    obtain ⟨q, rest', hq, hrest', hfactor⟩ := ih .factor htail
    exact ⟨_, rest', hq.negative, hrest', .negative hfactor⟩
  | positive _ ih =>
    cases hr
    obtain ⟨us, rfl, htail⟩ := hts.of_mark
    obtain ⟨q, rest', hq, hrest', hfactor⟩ := ih .factor htail
    exact ⟨_, rest', hq.positive, hrest', .positive hfactor⟩
  | power _ _ ih₁ ih₂ =>
    cases hr
    obtain ⟨q, mid, hq, hmid, hbase⟩ := ih₁ .operand hts
    obtain ⟨mid', rfl, hlater⟩ := hmid.of_mark
    obtain ⟨q', rest', hq', hrest', hexponent⟩ := ih₂ .factor hlater
    exact ⟨_, rest', hq.binary hq' _, hrest', .power hbase hexponent⟩
  | base _ hend ih =>
    cases hr
    obtain ⟨q, rest', hq, hrest', hbase⟩ := ih .operand hts
    exact ⟨q, rest', hq, hrest', .base hbase fun hhead => hend (hrest'.head?_mark hhead)⟩
  | @name w rest hend =>
    cases hr
    cases hts with
    | keep _ hrest => exact ⟨_, _, .word hsub w, hrest, .name (hend.respelled hrest)⟩
    | letter => exact absurd rfl hend.1
  | literal hform hend =>
    cases hr
    cases hts with
    | keep _ hrest => exact ⟨_, _, ⟨nofun, nofun, id, nofun⟩, hrest, .literal hform (hend.respelled hrest)⟩
  | quoted hend =>
    cases hr
    cases hts with
    | keep _ hrest => exact ⟨_, _, ⟨nofun, nofun, nofun, id⟩, hrest, .quoted (hend.respelled hrest)⟩
  | paren _ hend ih =>
    cases hr
    obtain ⟨us, rfl, htail⟩ := hts.of_mark
    obtain ⟨q, rest', hq, hrest', hinner⟩ := ih .sum htail
    obtain ⟨rest', rfl, hlater⟩ := hrest'.of_mark
    exact ⟨q, rest', hq, hlater, .paren hinner (hend.respelled hlater)⟩
  | @call w ts rest p hargs hend ih =>
    cases hr
    cases hts with
    | keep _ hrest =>
      obtain ⟨us, rfl, htail⟩ := hrest.of_mark
      obtain ⟨q, rest', hq, hrest', hcall⟩ := ih (.args .nil) htail
      exact ⟨q, rest', hq, hrest', .call hcall (hend.respelled hrest')⟩
    | letter hc hrest =>
      obtain ⟨rfl, rfl⟩ := hargs.unique (derives_letter _)
      exact ⟨_, _, .letter hc, hrest, .name (hend.respelled hrest)⟩
  | callParen _ _ hend ih₁ ih₂ =>
    cases hr
    obtain ⟨us, rfl, htail⟩ := hts.of_mark
    obtain ⟨q, mid, hq, hmid, hname⟩ := ih₁ .sum htail
    obtain ⟨mid₁, rfl, hmid₁⟩ := hmid.of_mark
    obtain ⟨mid₂, rfl, hmid₂⟩ := hmid₁.of_mark
    obtain ⟨q', rest', hq', hrest', hcall⟩ := ih₂ (.args .nil) hmid₂
    obtain rfl := hq.name rfl
    exact ⟨q', rest', hq', hrest', .callParen hname hcall (hend.respelled hrest')⟩
  | lastArg _ ih =>
    cases hr with
    | args hfound =>
      obtain ⟨q, rest', hq, hrest', harg⟩ := ih .sum hts
      obtain ⟨rest', rfl, hlater⟩ := hrest'.of_mark
      exact ⟨_, rest', .call (List.rel_append (List.rel_reverse hfound) (.cons hq .nil)) _, hlater, .lastArg harg⟩
  | lastArgComma _ ih =>
    cases hr with
    | args hfound =>
      obtain ⟨q, rest', hq, hrest', harg⟩ := ih .sum hts
      obtain ⟨mid, rfl, hmid⟩ := hrest'.of_mark
      obtain ⟨rest', rfl, hlater⟩ := hmid.of_mark
      exact ⟨_, rest', .call (List.rel_append (List.rel_reverse hfound) (.cons hq .nil)) _, hlater, .lastArgComma harg⟩
  | nextArg _ _ ih₁ ih₂ =>
    cases hr with
    | args hfound =>
      obtain ⟨q, mid, hq, hmid, harg⟩ := ih₁ .sum hts
      obtain ⟨mid', rfl, hlater⟩ := hmid.of_mark
      obtain ⟨q', rest', hq', hrest', hmore⟩ := ih₂ (.args (.cons hq hfound)) hlater
      exact ⟨q', rest', hq', hrest', .nextArg harg hmore⟩

end Respelled

end Phrase

end AlgebraTutor.Reader
