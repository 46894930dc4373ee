import AlgebraTutor.Proofs.Reader.Written
import AlgebraTutor.Tree.Terms

/-!
# Reading a sum of signed terms

A sum is written term by term, each behind its sign, and a minus that a term begins with is taken into that sign. So the
text of a term is read with and without a minus in front of it: the minus binds to the first factor of a product. Whatever
the terms are, the text of their sum is read as a chain of sums and differences of the terms, up to those signs.
-/

namespace AlgebraTutor

/-- The operator that joins a term with a sign to a sum. -/
def Sign.op : Sign → Op
  | .plus => .add
  | .minus => .sub

namespace Tree

/-- The second tree is the first one, a product or a factor, with a minus in front of its first factor. -/
inductive Signs : Tree → Tree → Prop
  | factor (t : Tree) : Signs t t.negate
  | product {op : Op} {t u : Tree} (hop : op = .mul ∨ op = .div) (h : Signs t u) (r : Tree) :
    Signs (binary op t r) (binary op u r)

/-- The tree with the sign stands for a term: it is the term itself, or a minus in front of the term has gone into the sign. -/
def Carries (term : Term) (u : Tree) (sign : Sign) : Prop :=
  u = term.1.stripParens ∧ sign = term.2 ∨ Signs u term.1.stripParens ∧ sign = term.2.flip

/-- The tree is a chain of sums and differences of the terms, in their order. -/
inductive IsSumOf : List Term → Tree → Prop
  | first {term : Term} {u : Tree} (h : Carries term u .plus) : IsSumOf [term] u
  | negative {term : Term} {u w : Tree} (h : Carries term u .minus) (hw : Signs u w) : IsSumOf [term] w
  | next {terms : List Term} {term : Term} {w u : Tree} {sign : Sign} (hw : IsSumOf terms w) (h : Carries term u sign) :
    IsSumOf (terms ++ [term]) (binary sign.op w u)

end Tree

namespace Reader

open Phrase (Derives IsSum IsTerm isTerm_of_derives multiplicative?)

theorem Piece.IsOperandText.tail {p : Piece} {ps : List Piece} (h : Piece.IsOperandText (p :: ps)) (hends : p.ends = false) :
    Piece.IsOperandText ps := by
  obtain ⟨last, hlast, hlastEnds⟩ := h.ends
  obtain ⟨hhead, hlater⟩ := List.isChain_cons.mp h.alternate
  have hne : ps ≠ [] := by
    rintro rfl
    obtain rfl : p = last := by simpa using hlast
    simp [hends] at hlastEnds
  obtain ⟨q, qs, rfl⟩ := List.exists_cons_of_ne_nil hne
  refine ⟨fun r hr => h.proper r (List.mem_cons_of_mem _ hr), hlater, ⟨q, rfl, ?_⟩, last, by simpa using hlast, hlastEnds⟩
  have hbegins := hhead q rfl
  rw [hends] at hbegins
  simpa using hbegins.symm

/-- Only a minus writes a minus in front of an operand. -/
theorem Piece.IsOperandText.exists_minus {ps : List Piece} (h : Piece.IsOperandText ps) {cs : List Char}
    (htext : Piece.text ps = '-' :: cs) : ∃ qs, ps = .minus :: qs ∧ Piece.text qs = cs := by
  obtain ⟨p, hp, hbegins⟩ := h.begins
  obtain ⟨qs, rfl⟩ := List.head?_eq_some_iff.mp hp
  rw [Piece.text_cons] at htext
  cases hatom : p.atom with
  | cons c more =>
    rw [hatom, List.cons_append] at htext
    have halphanum := Piece.isAlphanum_of_mem_atom (h.proper p List.mem_cons_self) (hatom ▸ List.mem_cons_self : c ∈ p.atom)
    obtain rfl := (List.cons.inj htext).1
    exact absurd halphanum (by decide)
  | nil =>
    rw [hatom, List.nil_append] at htext
    have hproper := h.proper p List.mem_cons_self
    have hchars := Piece.chars_ne_nil hproper (.inl hbegins)
    cases p with
    | minus => exact ⟨qs, rfl, (List.cons.inj htext).2⟩
    | openParen | opening f => simp [Piece.signs] at htext
    | number n | name w | multiple n w => simp [Piece.chars, hatom, Piece.signs] at hchars
    | closeParen | comma | operator op => simp [Piece.begins] at hbegins

/-! ### A minus in front of a product -/

namespace Phrase

/-- The second phrase is the first one, a product or a factor, with a minus in front of its first factor. -/
inductive Signs : Phrase → Phrase → Prop
  | factor (p : Phrase) : Signs p p.negative
  | product {p q : Phrase} {t : Token} {op : Operation} (hop : multiplicative? t = some op) (h : Signs p q) (r : Phrase) :
    Signs (.binary op p r) (.binary op q r)

theorem Signs.exists_unsigned {p q q' : Phrase} {ts rest : List Token} (h : Signs p q)
    (hderives : Derives (.productTail q) ts q' rest) : ∃ p', Signs p' q' ∧ Derives (.productTail p) ts p' rest := by
  generalize hrule : Rule.productTail q = r at hderives
  induction hderives generalizing p q with
  | productEnd hend =>
    obtain rfl := Rule.productTail.inj hrule
    exact ⟨p, h, .productEnd hend⟩
  | productStep hop hright _ _ ih =>
    obtain rfl := Rule.productTail.inj hrule
    obtain ⟨p', hsigns, hrest⟩ := ih (.product hop h _) rfl
    exact ⟨p', hsigns, .productStep hop hright hrest⟩
  | _ => simp at hrule

theorem Signs.exists_signed {p q p' : Phrase} {ts rest : List Token} (h : Signs p q)
    (hderives : Derives (.productTail p) ts p' rest) : ∃ q', Signs p' q' ∧ Derives (.productTail q) ts q' rest := by
  generalize hrule : Rule.productTail p = r at hderives
  induction hderives generalizing p q with
  | productEnd hend =>
    obtain rfl := Rule.productTail.inj hrule
    exact ⟨q, h, .productEnd hend⟩
  | productStep hop hright _ _ ih =>
    obtain rfl := Rule.productTail.inj hrule
    obtain ⟨q', hsigns, hrest⟩ := ih (.product hop h _) rfl
    exact ⟨q', hsigns, .productStep hop hright hrest⟩
  | _ => simp at hrule

/-- A product behind a minus is a product without it. -/
theorem Derives.exists_unsigned {q : Phrase} {ts rest : List Token} (h : Derives .product (.mark .minus :: ts) q rest) :
    ∃ p, Signs p q ∧ Derives .product ts p rest := by
  cases h with
  | product hfirst htail =>
    cases hfirst with
    | negative hfactor =>
      obtain ⟨p, hsigns, hrest⟩ := (Signs.factor _).exists_unsigned htail
      exact ⟨p, hsigns, .product hfactor hrest⟩
    | power hbase _ | base hbase _ =>
      obtain ⟨_, _, heq, hminus, -⟩ := hbase.begins_operand
      exact absurd (List.cons.inj heq).1.symm hminus

theorem Derives.exists_signed {p : Phrase} {ts rest : List Token} (h : Derives .product ts p rest) :
    ∃ q, Signs p q ∧ Derives .product (.mark .minus :: ts) q rest := by
  cases h with
  | product hfirst htail =>
    obtain ⟨q, hsigns, hrest⟩ := (Signs.factor _).exists_signed htail
    exact ⟨q, hsigns, .product (.negative hfirst) hrest⟩

end Phrase

namespace Phrase

/-! ### Signs of trees -/

variable {p q : Phrase} {text : String} {vars : List Char} {t u : Tree}

theorem op?_of_multiplicative? {t : Token} {op : Operation} (hop : multiplicative? t = some op) {o : Op}
    (ho : op.op? = some o) : o = .mul ∨ o = .div := by
  unfold multiplicative? at hop
  split at hop <;> cases hop <;> simp_all [Operation.op?]

/-- A phrase without the minus in front stands for the tree without it. -/
theorem Signs.exists_treeOf_unsigned (h : Signs p q) (hread : treeOf text vars q = .ok u) :
    ∃ t, treeOf text vars p = .ok t ∧ Tree.Signs t u := by
  induction h generalizing u with
  | factor p =>
    obtain ⟨t, ht, rfl⟩ := treeOf_negative_eq_ok_iff.mp hread
    exact ⟨t, ht, .factor t⟩
  | product hop _ r ih =>
    obtain ⟨o, ho, left, hleft, right, hright, rfl⟩ := treeOf_binary_eq_ok_iff.mp hread
    obtain ⟨t, ht, hsigns⟩ := ih hleft
    exact ⟨_, treeOf_binary_eq_ok_iff.mpr ⟨o, ho, t, ht, right, hright, rfl⟩,
      .product (op?_of_multiplicative? hop ho) hsigns right⟩

theorem Signs.exists_treeOf_signed (h : Signs p q) (hread : treeOf text vars p = .ok t) :
    ∃ u, treeOf text vars q = .ok u ∧ Tree.Signs t u := by
  induction h generalizing t with
  | factor p => exact ⟨t.negate, treeOf_negative_eq_ok_iff.mpr ⟨t, hread, rfl⟩, .factor t⟩
  | product hop _ r ih =>
    obtain ⟨o, ho, left, hleft, right, hright, rfl⟩ := treeOf_binary_eq_ok_iff.mp hread
    obtain ⟨u, hu, hsigns⟩ := ih hleft
    exact ⟨_, treeOf_binary_eq_ok_iff.mpr ⟨o, ho, u, hu, right, hright, rfl⟩,
      .product (op?_of_multiplicative? hop ho) hsigns right⟩

end Phrase

namespace Piece

open AlgebraTutor.Tree (Carries IsSumOf)

/-! ### Terms and sums in pieces -/

variable {ps qs : List Piece} {P Q : Tree → Prop}

/-- The phrase stands for a tree with the property, wherever the names of the pieces are known. -/
def ReadsAs (ps : List Piece) (q : Phrase) (P : Tree → Prop) : Prop :=
  ∀ text vars, (∀ p ∈ ps, p.Known vars) → ∃ t, treeOf text vars q = .ok t ∧ P t

/-- The pieces are read as a product with the property. -/
structure IsTermText (ps : List Piece) (P : Tree → Prop) : Prop where
  operand : IsOperandText ps
  closed : closes 0 (ps.flatMap spelled) = true
  reads : ∃ q, Derives .product (ps.flatMap tokens) q [] ∧ ReadsAs ps q P

/-- The pieces are read as a sum with the property. -/
structure IsSumText (ps : List Piece) (P : Tree → Prop) : Prop where
  operand : IsOperandText ps
  closed : closes 0 (ps.flatMap spelled) = true
  reads : ∃ q, IsSum (ps.flatMap tokens) q ∧ ReadsAs ps q P

theorem ReadsAs.mono {q : Phrase} (h : ReadsAs ps q P) (himp : ∀ t, P t → Q t) : ReadsAs ps q Q :=
  fun text vars hknown => (h text vars hknown).imp fun t ht => ht.imp_right (himp t)

theorem IsTermText.mono (h : IsTermText ps P) (himp : ∀ t, P t → Q t) : IsTermText ps Q where
  operand := h.operand
  closed := h.closed
  reads := h.reads.imp fun _ hq => hq.imp_right fun hreads => hreads.mono himp

theorem IsSumText.mono (h : IsSumText ps P) (himp : ∀ t, P t → Q t) : IsSumText ps Q where
  operand := h.operand
  closed := h.closed
  reads := h.reads.imp fun _ hq => hq.imp_right fun hreads => hreads.mono himp

theorem IsTermText.sum (h : IsTermText ps P) : IsSumText ps P where
  operand := h.operand
  closed := h.closed
  reads := h.reads.imp fun _ hq => hq.imp_left fun hderives => (isTerm_of_derives hderives).sum

theorem IsTermText.negative (h : IsTermText ps P) : IsTermText (.minus :: ps) fun w => ∃ u, P u ∧ Tree.Signs u w where
  operand := h.operand.cons trivial rfl rfl
  closed := h.closed
  reads := by
    obtain ⟨q, hderives, hreads⟩ := h.reads
    obtain ⟨q', hsigns, hderives'⟩ := hderives.exists_signed
    refine ⟨q', hderives', fun text vars hknown => ?_⟩
    obtain ⟨u, hu, hP⟩ := hreads text vars fun p hp => hknown p (List.mem_cons_of_mem _ hp)
    obtain ⟨w, hw, htrees⟩ := hsigns.exists_treeOf_signed hu
    exact ⟨w, hw, u, hP, htrees⟩

theorem IsTermText.unsigned (h : IsTermText (.minus :: ps) P) : IsTermText ps fun u => ∃ w, P w ∧ Tree.Signs u w where
  operand := h.operand.tail rfl
  closed := h.closed
  reads := by
    obtain ⟨q, hderives, hreads⟩ := h.reads
    obtain ⟨q', hsigns, hderives'⟩ := hderives.exists_unsigned
    refine ⟨q', hderives', fun text vars hknown => ?_⟩
    obtain ⟨w, hw, hP⟩ := hreads text vars (List.forall_mem_cons.mpr ⟨trivial, hknown⟩)
    obtain ⟨u, hu, htrees⟩ := hsigns.exists_treeOf_unsigned hw
    exact ⟨u, hu, w, hP, htrees⟩

/-- The piece that joins a term with a sign to a sum. -/
def joint (sign : Sign) : Piece :=
  .operator sign.op

theorem IsSumText.append (h : IsSumText ps P) (h' : IsTermText qs Q) (sign : Sign) :
    IsSumText (ps ++ joint sign :: qs) fun t => ∃ w u, P w ∧ Q u ∧ t = Tree.binary sign.op w u where
  operand := by cases sign <;> exact h.operand.append h'.operand rfl rfl rfl
  closed := by
    have hjoint : closes 0 ((joint sign).spelled ++ qs.flatMap spelled) = closes 0 (qs.flatMap spelled) := by
      cases sign <;> rfl
    have hclosed := @closes_append 0 0 _ h.closed ((joint sign).spelled ++ qs.flatMap spelled)
    rw [List.flatMap_append, List.flatMap_cons]
    exact hclosed.trans (hjoint.trans h'.closed)
  reads := by
    obtain ⟨p, hsum, hreads⟩ := h.reads
    obtain ⟨q, hterm, hreads'⟩ := h'.reads
    refine ⟨.binary (match sign with | .plus => .add | .minus => .sub) p q, ?_, fun text vars hknown => ?_⟩
    · rw [List.flatMap_append, List.flatMap_cons]
      cases sign
      · exact hsum.append (m := .plus) rfl (isTerm_of_derives hterm)
      · exact hsum.append (m := .minus) rfl (isTerm_of_derives hterm)
    · obtain ⟨hleft, hright⟩ := List.forall_mem_append.mp hknown
      obtain ⟨w, hw, hP⟩ := hreads text vars hleft
      obtain ⟨u, hu, hQ⟩ := hreads' text vars (List.forall_mem_cons.mp hright).2
      cases sign
      · exact ⟨_, treeOf_binary_eq_ok_iff.mpr ⟨.add, rfl, w, hw, u, hu, rfl⟩, w, u, hP, hQ, rfl⟩
      · exact ⟨_, treeOf_binary_eq_ok_iff.mpr ⟨.sub, rfl, w, hw, u, hu, rfl⟩, w, u, hP, hQ, rfl⟩

/-- The text of a sum is read as a tree with its property. -/
theorem IsSumText.exists_ofText (h : IsSumText ps P) : ∃ t, Tree.ofText (String.ofList (text ps)) = .ok t ∧ P t := by
  obtain ⟨q, hsum, hreads⟩ := h.reads
  have hwhole := @IsSum.whole _ _ hsum [] ⟨⟨by simp, by simp⟩, by simp⟩ (by simp) (by simp)
  rw [List.append_nil] at hwhole
  obtain ⟨vars, hknown, hread⟩ := exists_known_of_derives h.operand h.closed (isBalanced_of_closes h.closed) hwhole
  obtain ⟨t, ht, hP⟩ := hreads _ vars hknown
  exact ⟨t, hread t ht, hP⟩

/-! ### Writing terms -/

/-- The tree of the term is written as a product, which is read as that tree within its parentheses. -/
def WritesTerm (term : Term) : Prop :=
  ∃ ps, term.1.chars = .ok (text ps) ∧ IsTermText ps (· = term.1.stripParens)

theorem WritesTerm.signedChars {term : Term} (h : WritesTerm term) {found : List Char × Sign}
    (hfound : Tree.signedChars term = .ok found) :
    ∃ qs, text qs = found.1 ∧ IsTermText qs fun u => Carries term u found.2 := by
  obtain ⟨ps, hchars, hterm⟩ := h
  rw [Tree.signedChars, hchars, Answer.ok_bind] at hfound
  split at hfound
  · rename_i rest htext
    obtain ⟨qs, rfl, rfl⟩ := hterm.operand.exists_minus htext
    obtain rfl := Answer.pure_eq_ok_iff.mp hfound
    refine ⟨qs, rfl, hterm.unsigned.mono ?_⟩
    rintro u ⟨_, rfl, hsigns⟩
    exact .inr ⟨hsigns, rfl⟩
  · obtain rfl := Answer.pure_eq_ok_iff.mp hfound
    exact ⟨ps, rfl, hterm.mono fun u hu => .inl ⟨hu, rfl⟩⟩

theorem IsSumText.laterTerms {terms before : List Term} (hterms : ∀ term ∈ terms, WritesTerm term)
    (h : IsSumText ps (IsSumOf before)) {later : List Char} (hlater : Tree.laterTerms terms = .ok later) :
    ∃ qs, text qs = text ps ++ later ∧ IsSumText qs (IsSumOf (before ++ terms)) := by
  induction terms generalizing ps before later with
  | nil =>
    obtain rfl := Except.ok.inj hlater
    exact ⟨ps, by simp, by simpa using h⟩
  | cons term terms ih =>
    obtain ⟨hterm, hrest⟩ := List.forall_mem_cons.mp hterms
    obtain ⟨found, hfound, hlater⟩ := Answer.bind_eq_ok_iff.mp hlater
    obtain ⟨more, hmore, heq⟩ := Answer.bind_eq_ok_iff.mp hlater
    obtain rfl := Answer.pure_eq_ok_iff.mp heq
    obtain ⟨qs, htext, hcarries⟩ := hterm.signedChars hfound
    obtain ⟨text, sign⟩ := found
    have hlonger : IsSumText (ps ++ joint sign :: qs) (IsSumOf (before ++ [term])) := by
      refine (h.append hcarries sign).mono ?_
      rintro _ ⟨w, u, hw, hu, rfl⟩
      exact .next hw hu
    obtain ⟨rs, hrs, hsum⟩ := ih hrest hlonger hmore
    refine ⟨rs, ?_, by simpa using hsum⟩
    rw [hrs, text_append, text_cons, htext]
    cases sign <;> simp [joint, Sign.op, atom, signs, Sign.char]

end Piece

open Piece (WritesTerm IsTermText text) in
/-- What is written of terms is read as a chain of sums and differences of them. -/
theorem exists_ofText_writeTerms {terms : List Term} (hterms : ∀ term ∈ terms, WritesTerm term) (hne : terms ≠ [])
    {cs : List Char} (hcs : Tree.writeTerms terms = .ok cs) :
    ∃ w, Tree.ofText (String.ofList cs) = .ok w ∧ Tree.IsSumOf terms w := by
  obtain ⟨term, rest, rfl⟩ := List.exists_cons_of_ne_nil hne
  obtain ⟨hterm, hlater⟩ := List.forall_mem_cons.mp hterms
  obtain ⟨⟨firstText, sign⟩, hfound, hcs⟩ := Answer.bind_eq_ok_iff.mp hcs
  obtain ⟨later, hwritten, heq⟩ := Answer.bind_eq_ok_iff.mp hcs
  obtain rfl := Answer.pure_eq_ok_iff.mp heq
  obtain ⟨qs, rfl, hcarries⟩ := hterm.signedChars hfound
  have hfirst : ∃ ps, text ps = (if sign = .plus then text qs else '-' :: text qs) ∧ IsTermText ps (Tree.IsSumOf [term]) := by
    cases sign with
    | plus => exact ⟨qs, rfl, hcarries.mono fun u hu => .first hu⟩
    | minus =>
      refine ⟨.minus :: qs, by simp [Piece.text_cons, Piece.atom, Piece.signs], hcarries.negative.mono ?_⟩
      rintro w ⟨u, hu, hsigns⟩
      exact .negative hu hsigns
  obtain ⟨ps, hps, hterm⟩ := hfirst
  obtain ⟨rs, hrs, hsum⟩ := hterm.sum.laterTerms hlater hwritten
  rw [← hps, ← hrs]
  exact hsum.exists_ofText

end Reader

end AlgebraTutor
