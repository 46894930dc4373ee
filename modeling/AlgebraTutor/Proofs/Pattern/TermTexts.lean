import AlgebraTutor.Proofs.Polynomial.Terms
import AlgebraTutor.Proofs.Text.Arrangement
import AlgebraTutor.Proofs.Tree.Constructed
import AlgebraTutor.Proofs.Tree.Digits

/-!
# The terms of the text of a tree

Cutting the text of a constructed tree gives the texts of the terms of the tree, in their order and each behind its sign.

Of the text of a tree that binds as tightly as a power, cutting sees no sign: signs stand in parentheses there, and parentheses
match. The text of a product may begin with a minus besides, which begins no term behind the sign of the product. So what a sum
writes between its signs is not cut, and the signs themselves are where the tree has them (`Tree.SplitsAs`).
-/

namespace AlgebraTutor

namespace Text

open Reader (closes parens paren? parens_cons_none)

variable {cs ds : List Char}

/-! ### Texts that are not cut -/

/-- Within parentheses, cutting passes over a text whose parentheses match. -/
theorem cutTerms_closed {depth : ℕ} (h : closes depth (parens cs) = true) (reversed rest : List Char) :
    cutTerms (1 + depth) reversed (cs ++ rest) = cutTerms 1 (cs.reverse ++ reversed) rest := by
  have hstep {c : Char} {cs reversed : List Char} {depth depth' : ℕ} (hdepth : depthAfter (1 + depth) c = 1 + depth') :
      cutTerms (1 + depth) reversed (c :: cs) = cutTerms (1 + depth') (c :: reversed) cs := by
    have hbegins : beginsTerm (1 + depth') c reversed = false := by
      have hinside : ((1 + depth' : Int) == 0) = false := beq_eq_false_iff_ne.mpr (by omega)
      simp [beginsTerm, hinside]
    rw [cutTerms, hdepth, hbegins, if_neg Bool.false_ne_true]
  induction cs generalizing depth reversed with
  | nil =>
    obtain rfl : depth = 0 := by simpa [parens, closes] using h
    rfl
  | cons c cs ih =>
    rw [List.cons_append, List.reverse_cons, List.append_assoc, List.singleton_append]
    by_cases hopen : c = '('
    · subst hopen
      rw [@hstep _ _ _ depth (depth + 1) (by simp [depthAfter]; omega)]
      exact ih h _
    · by_cases hclose : c = ')'
      · subst hclose
        cases depth with
        | zero => exact Bool.noConfusion h
        | succ depth =>
          rw [@hstep _ _ _ (depth + 1) depth (by simp [depthAfter]; omega)]
          exact ih h _
      · have hnone : paren? c = none := by simp [paren?, hopen, hclose]
        rw [parens_cons_none hnone] at h
        rw [@hstep _ _ _ depth depth (by simp [depthAfter, hopen, hclose]), ih h]

theorem isUncut_group (h : closes 0 (parens cs) = true) : IsUncut ('(' :: cs ++ [')']) := by
  intro reversed rest
  have hopen : cutTerms 0 reversed ('(' :: (cs ++ ')' :: rest)) = cutTerms 1 ('(' :: reversed) (cs ++ ')' :: rest) := rfl
  have hclose (reversed : List Char) : cutTerms 1 reversed (')' :: rest) = cutTerms 0 (')' :: reversed) rest := rfl
  have hinner := @cutTerms_closed cs 0 h ('(' :: reversed) (')' :: rest)
  rw [Nat.cast_zero, add_zero] at hinner
  simp only [List.cons_append, List.append_assoc, List.nil_append, List.reverse_cons, List.reverse_append, List.reverse_nil]
  rw [hopen, hinner, hclose]

/-! ### Bare texts -/

theorem bareText_append (cs ds : List Char) : bareText (cs ++ ds) = bareText cs ++ bareText ds :=
  List.filter_append ..

theorem bareText_cons {c : Char} (hc : isBlank c = false) (hstar : c ≠ '*') (cs : List Char) :
    bareText (c :: cs) = c :: bareText cs := by
  simp [bareText, hc, hstar]

theorem parens_bareText (cs : List Char) : parens (bareText cs) = parens cs := by
  rw [parens, bareText, List.filterMap_filter]
  refine List.filterMap_congr fun c _ => ?_
  by_cases hc : (paren? c).isSome = true
  · rcases Reader.eq_of_paren? hc with rfl | rfl <;> rfl
  · rw [Option.not_isSome_iff_eq_none.mp hc, ite_self]

theorem bareText_eq_self (h : ∀ c ∈ cs, c.isAlphanum = true) : bareText cs = cs := by
  refine List.filter_eq_self.mpr fun c hc => ?_
  simpa [Reader.isSolid] using Reader.isSolid_of_isAlphanum (h c hc)

theorem isUncut_word (h : ∀ c ∈ cs, c.isAlphanum = true) : IsUncut cs :=
  isUncut_of_forall
    (fun c hc => ⟨ne_of_isAlphanum (h c hc) (by decide), ne_of_isAlphanum (h c hc) (by decide)⟩)
    fun c hc => ⟨ne_of_isAlphanum (h c hc) (by decide), ne_of_isAlphanum (h c hc) (by decide)⟩

theorem ends_word (hne : cs ≠ []) (h : ∀ c ∈ cs, c.isAlphanum = true) : ∃ c ∈ cs.getLast?, endsTerm c = true :=
  ⟨cs.getLast hne, List.getLast_mem_getLast? hne, endsTerm_of_isAlphanum (h _ (List.getLast_mem hne))⟩

end Text

namespace Tree

open Text (IsUncut IsUnbroken bareText bareText_append bareText_cons joinSigned termTexts)

variable {t l r : Tree} {op : Op} {args : List Tree} {cs ds es : List Char}

/-! ### Trees and their terms -/

/-- The row is the term with its text, as it is compared. -/
def IsRow (term : Term) (row : List Char × Sign) : Prop :=
  row.2 = term.2 ∧ ∃ ds, term.1.chars = .ok ds ∧ row.1 = bareText ds

/-- The text is written of the terms of the tree. It is that of one term if the tree is no sum, and no sign is seen in it if the
tree binds as tightly as a power. -/
structure SplitsAs (t : Tree) (cs : List Char) : Prop where
  rows : ∃ rows, cs = joinSigned rows ∧ List.Forall₂ IsRow (t.termsFrom .plus) rows ∧ ∀ row ∈ rows, IsUnbroken row.1
  unbroken : 2 ≤ t.precedence → IsUnbroken cs
  uncut : 4 ≤ t.precedence → IsUncut cs

theorem splitsAs_of_single (hcs : t.chars = .ok cs) (hterms : t.termsFrom .plus = [(t, .plus)]) (hunbroken : IsUnbroken (bareText cs))
    (huncut : 4 ≤ t.precedence → IsUncut (bareText cs)) : t.SplitsAs (bareText cs) where
  rows := by
    refine ⟨[(bareText cs, .plus)], by simp [joinSigned], ?_, by simpa using hunbroken⟩
    rw [hterms]
    exact .cons ⟨rfl, cs, hcs, rfl⟩ .nil
  unbroken _ := hunbroken
  uncut := huncut

/-- Whatever stands in parentheses, behind a name or nothing, is not cut. -/
theorem splitsAs_group {name : List Char} (hcs : t.chars = .ok (name ++ ('(' :: ds ++ [')'])))
    (hterms : t.termsFrom .plus = [(t, .plus)]) (hname : ∀ c ∈ name, c.isAlphanum = true)
    (hclosed : Reader.closes 0 (Reader.parens ds) = true) : t.SplitsAs (bareText (name ++ ('(' :: ds ++ [')']))) := by
  have hbare : bareText (name ++ ('(' :: ds ++ [')'])) = name ++ ('(' :: bareText ds ++ [')']) := by
    rw [bareText_append, Text.bareText_eq_self hname, List.cons_append, bareText_cons (by decide) (by decide), bareText_append]
    rfl
  have huncut : IsUncut (name ++ ('(' :: bareText ds ++ [')'])) :=
    (Text.isUncut_word hname).append (Text.isUncut_group (by rwa [Text.parens_bareText]))
  refine splitsAs_of_single hcs hterms ?_ fun _ => hbare.symm ▸ huncut
  rw [hbare]
  refine huncut.isUnbroken (fun hplus => ?_) ⟨')', by rw [← List.append_assoc, List.getLast?_concat]; rfl, by decide⟩
  cases name with
  | nil => simp at hplus
  | cons c name =>
    obtain rfl : c = '+' := by simpa using hplus
    exact absurd (hname '+' List.mem_cons_self) (by decide)

theorem splitsAs_parenIf {needed : Bool} (ht : t.Constructed) (h : ∀ cs, t.chars = .ok cs → t.SplitsAs (bareText cs))
    (hcs : (parenIf needed t).chars = .ok cs) : (parenIf needed t).SplitsAs (bareText cs) := by
  cases needed with
  | false => exact h cs hcs
  | true =>
    obtain ⟨ds, hds, rfl⟩ := chars_paren_eq_ok_iff.mp hcs
    exact @splitsAs_group _ ds [] hcs ((isSummand_paren t).termsFrom .plus) (by simp) (ht.isWorded.isWritten hds).closed

theorem ne_of_rightNeedsParen (hop : op ≠ .pow) (hright : rightNeedsParen op r = false) : r.precedence ≠ signPrecedence := by
  rw [rightNeedsParen, if_neg hop, Bool.or_eq_false_iff] at hright
  exact of_decide_eq_false hright.1

theorem splitsAs_sum (hop : op = .add ∨ op = .sub) (implicit : Bool) (hl : l.SplitsAs (bareText ds)) (hr : r.SplitsAs (bareText es))
    (hes : r.chars = .ok es) (hright : rightNeedsParen op r = false) :
    (apply op [l, r]).SplitsAs (bareText (ds ++ (separator implicit op ++ es))) := by
  have hunsigned : r.IsUnsigned :=
    ⟨(Reader.Piece.le_of_rightNeedsParen hright).2.2, ne_of_rightNeedsParen (by rcases hop with rfl | rfl <;> decide) hright⟩
  obtain ⟨sign, hterms, hseparator⟩ : ∃ sign, (apply op [l, r]).termsFrom .plus = l.termsFrom .plus ++ [(r, sign)] ∧
      bareText (separator implicit op) = [sign.char] := by
    rcases hop with rfl | rfl
    · exact ⟨.plus, by rw [termsFrom, hunsigned.termsFrom], rfl⟩
    · exact ⟨.minus, by rw [termsFrom, hunsigned.termsFrom]; rfl, rfl⟩
  have hprecedence : (apply op [l, r]).precedence = 1 := by rcases hop with rfl | rfl <;> rfl
  obtain ⟨rows, hrows, hall, hunbroken⟩ := hl.rows
  have hne : rows ≠ [] := by
    rintro rfl
    exact termsFrom_ne_nil _ _ (List.forall₂_nil_right_iff.mp hall)
  refine ⟨⟨rows ++ [(bareText es, sign)], ?_, ?_, ?_⟩, by omega, by omega⟩
  · rw [Text.joinSigned_concat hne, ← hrows, bareText_append, bareText_append, hseparator]
    rfl
  · rw [hterms]
    exact List.rel_append hall (.cons ⟨rfl, es, hes, rfl⟩ .nil)
  · exact List.forall_mem_append.mpr ⟨hunbroken, List.forall_mem_singleton.mpr (hr.unbroken hunsigned.1)⟩

theorem splitsAs_product (hop : op = .mul ∨ op = .div ∨ op = .pow) (implicit : Bool) (hl : l.SplitsAs (bareText ds))
    (hr : r.SplitsAs (bareText es)) (hchars : (apply op [l, r]).chars = .ok (ds ++ (separator implicit op ++ es)))
    (hleft : leftNeedsParen op l = false) (hright : rightNeedsParen op r = false) :
    (apply op [l, r]).SplitsAs (bareText (ds ++ (separator implicit op ++ es))) := by
  obtain ⟨hleft, -⟩ := Reader.Piece.le_of_leftNeedsParen hleft
  have htight : 4 ≤ r.precedence := by
    obtain ⟨hle, hlt, -⟩ := Reader.Piece.le_of_rightNeedsParen hright
    have hproduct (hne : op ≠ .pow) (htwo : op.precedence = 2) : 4 ≤ r.precedence := by
      have hsigned : r.precedence ≠ 3 := ne_of_rightNeedsParen hne hright
      have := hlt hne
      omega
    rcases hop with rfl | rfl | rfl
    · exact hproduct (by decide) rfl
    · exact hproduct (by decide) rfl
    · exact hle
  have hprecedence : (apply op [l, r]).precedence = op.precedence ∧ 2 ≤ op.precedence := by
    rcases hop with rfl | rfl | rfl <;> exact ⟨rfl, by decide⟩
  have hterms : (apply op [l, r]).termsFrom .plus = [(apply op [l, r], .plus)] := by
    rcases hop with rfl | rfl | rfl <;> rfl
  have hseparator : IsUncut (bareText (separator implicit op)) := by
    rcases hop with rfl | rfl | rfl <;> cases implicit <;> exact Text.isUncut_of_forall (by decide) (by decide)
  have hlater : IsUncut (bareText (separator implicit op) ++ bareText es) := hseparator.append (hr.uncut htight)
  have hends : ∃ c ∈ (bareText (separator implicit op) ++ bareText es).getLast?, Text.endsTerm c = true := by
    obtain ⟨c, hc, hlast⟩ := (hr.unbroken (by omega)).ends
    exact ⟨c, by simp [List.getLast?_append, Option.mem_def.mp hc], hlast⟩
  have hbare : bareText (ds ++ (separator implicit op ++ es)) = bareText ds ++ (bareText (separator implicit op) ++ bareText es) := by
    rw [bareText_append, bareText_append]
  refine splitsAs_of_single hchars hterms ?_ fun hpower => ?_
  · rw [hbare]
    exact (hl.unbroken (by omega)).append hlater hends
  · rw [hbare]
    exact (hl.uncut (by omega)).append hlater

theorem splitsAs_word (hcs : t.chars = .ok cs) (hterms : t.termsFrom .plus = [(t, .plus)]) (hne : cs ≠ [])
    (hword : ∀ c ∈ cs, c.isAlphanum = true) : t.SplitsAs (bareText cs) := by
  have hbare : bareText cs = cs := Text.bareText_eq_self hword
  have huncut : IsUncut cs := Text.isUncut_word hword
  refine splitsAs_of_single hcs hterms ?_ fun _ => hbare.symm ▸ huncut
  rw [hbare]
  exact huncut.isUnbroken (fun hplus => absurd (hword _ (List.mem_of_mem_head? hplus)) (by decide)) (Text.ends_word hne hword)

theorem splitsAs_integer {n : Int} (hcs : (const n).chars = .ok cs) : (const n).SplitsAs (bareText cs) := by
  have hterms := (isSummand_const n).termsFrom .plus
  have hdigits : ∀ c ∈ Nat.toDigits 10 n.natAbs, c.isAlphanum = true := fun c hc => by
    simp [Char.isAlphanum, Text.isDigit_of_mem_digits hc]
  obtain ⟨-, heq⟩ := chars_integer_eq_ok_iff.mp hcs
  split_ifs at heq with hnegative
  · subst heq
    have hprecedence : (const n).precedence = signPrecedence := by rw [precedence, if_pos (by exact_mod_cast hnegative)]
    refine splitsAs_of_single hcs hterms ?_ fun hpower => absurd hpower (by rw [hprecedence]; decide)
    rw [bareText_cons (by decide) (by decide), Text.bareText_eq_self hdigits]
    exact (Text.isUncut_word hdigits).minus (Text.ends_word Nat.toDigits_ne_nil hdigits)
  · subst heq
    exact splitsAs_word hcs hterms Nat.toDigits_ne_nil hdigits

theorem splitsAs_sign (hsingle : t.termsFrom .minus = [(t, .minus)]) (h : t.SplitsAs (bareText ds)) (hds : t.chars = .ok ds)
    (hpower : 4 ≤ t.precedence) : (apply .sub [t]).SplitsAs (bareText ('-' :: ds)) := by
  have hunbroken := h.unbroken (by omega)
  rw [bareText_cons (by decide) (by decide)]
  refine ⟨⟨[(bareText ds, .minus)], by simp [joinSigned], ?_, by simpa using hunbroken⟩, fun _ => ?_,
    fun htight => absurd htight (by decide : ¬4 ≤ signPrecedence)⟩
  · rw [termsFrom, Sign.flip, hsingle]
    exact .cons ⟨rfl, ds, hds, rfl⟩ .nil
  · exact (h.uncut hpower).minus hunbroken.ends

theorem Constructed.splitsAs (h : t.Constructed) : ∀ cs, t.chars = .ok cs → t.SplitsAs (bareText cs) := by
  refine h.shapes (motive := fun t => ∀ cs, t.chars = .ok cs → t.SplitsAs (bareText cs)) ?integer ?symbol ?sign ?binary ?call
  case integer => exact fun n cs hcs => splitsAs_integer hcs
  case symbol =>
    intro v hv cs hcs
    obtain rfl := Except.ok.inj hcs
    have hne : v.toList ≠ [] := fun hnil => by
      obtain ⟨c, hc, -⟩ := (isWritten_of_isReadableName hv).begins
      simp [hnil] at hc
    exact splitsAs_word hcs rfl hne (isAlphanum_of_isReadableName hv)
  case sign =>
    intro t ht ih cs hcs
    obtain ⟨ds, hds, rfl⟩ := chars_sign_eq_ok_iff.mp hcs
    have hpower : 4 ≤ (parenIf (t.precedence ≤ signPrecedence) t).precedence := by
      cases hneeded : decide (t.precedence ≤ signPrecedence) with
      | true => exact (by decide : 4 ≤ atomPrecedence)
      | false => exact Nat.not_le.mp (of_decide_eq_false hneeded)
    exact splitsAs_sign ((isSummand_parenIf_sign t).termsFrom .minus) (splitsAs_parenIf ht ih hds) hds hpower
  case binary =>
    intro op l r hop hl hr ihl ihr cs hcs
    have hchars := hcs
    obtain ⟨implicit, -, ds, hds, es, hes, rfl⟩ := (chars_operator_eq_ok_iff hop).mp hcs
    have hleft := splitsAs_parenIf hl ihl hds
    have hright := splitsAs_parenIf hr ihr hes
    have hkind : (op = .add ∨ op = .sub) ∨ op = .mul ∨ op = .div ∨ op = .pow := by
      cases op <;> simp [Op.isArithmetic] at hop ⊢
    rcases hkind with hsum | hproduct
    · exact splitsAs_sum hsum implicit hleft hright hes (Reader.Piece.rightNeedsParen_parenIf hop r)
    · exact splitsAs_product hproduct implicit hleft hright hchars (Reader.Piece.leftNeedsParen_parenIf op l)
        (Reader.Piece.rightNeedsParen_parenIf hop r)
  case call =>
    intro f args hf hargs cs hcs
    have hchars := hcs
    obtain ⟨css, hcss, heq⟩ := Answer.bind_eq_ok_iff.mp hcs
    obtain rfl := Answer.pure_eq_ok_iff.mp heq
    have hname : ∀ c ∈ f.toList, c.isAlphanum = true := fun c hc => by
      simp [Char.isAlphanum, (Reader.Piece.isAlpha_function hf).1 c hc]
    have hclosed : Reader.closes 0 (Reader.parens (joinChars [',', ' '] css)) = true := by
      have hwritten := isWritten_charsAll (fun a ha => (hargs a ha).1.isWorded) hcss
      cases css with
      | nil => rfl
      | cons cs css => exact (Reader.isWritten_joinChars (by simp) hwritten).closed
    rw [List.append_assoc] at hchars ⊢
    exact splitsAs_group hchars rfl hname hclosed

/-! ### Written trees -/

theorem exists_chars_parenIf {needed : Bool} (h : ∃ cs, t.chars = .ok cs) : ∃ cs, (parenIf needed t).chars = .ok cs := by
  obtain ⟨cs, hcs⟩ := h
  cases needed with
  | false => exact ⟨cs, hcs⟩
  | true => exact ⟨_, chars_paren_eq_ok_iff.mpr ⟨cs, hcs, rfl⟩⟩

theorem exists_charsAll (h : ∀ a ∈ args, ∃ cs, a.chars = .ok cs) : ∃ css, charsAll args = .ok css := by
  induction args with
  | nil => exact ⟨[], rfl⟩
  | cons a args ih =>
    obtain ⟨⟨cs, hcs⟩, hargs⟩ := List.forall_mem_cons.mp h
    obtain ⟨css, hcss⟩ := ih hargs
    exact ⟨cs :: css, by rw [charsAll, hcs, hcss]; rfl⟩

theorem Constructed.exists_isImplicitProduct (h : r.Constructed) (needed : Bool) (l : Tree) :
    ∃ implicit, isImplicitProduct l (parenIf needed r) = .ok implicit := by
  have hpower : parenIf needed r ≠ .apply .pow [] := by
    cases needed with
    | false => refine h.shapes (motive := (· ≠ .apply .pow [])) ?_ ?_ ?_ ?_ ?_ <;> intros <;> simp
    | true => nofun
  unfold isImplicitProduct
  split
  · exact ⟨_, rfl⟩
  · contradiction
  · exact ⟨_, rfl⟩
  · exact ⟨_, rfl⟩

/-- A constructed tree is written if its integers can be. -/
theorem Constructed.exists_chars (h : t.Constructed) : t.HasShortIntegers → ∃ cs, t.chars = .ok cs := by
  refine h.shapes (motive := fun t => t.HasShortIntegers → ∃ cs, t.chars = .ok cs) ?integer ?symbol ?sign ?binary ?call
  case integer => exact fun n hn => ⟨_, chars_integer_eq_ok_iff.mpr ⟨hasShortIntegers_const.mp hn, rfl⟩⟩
  case symbol => exact fun v _ _ => ⟨_, rfl⟩
  case sign =>
    intro t _ ih hshort
    simp only [hasShortIntegers_apply, List.forall_mem_singleton, hasShortIntegers_parenIf] at hshort
    obtain ⟨ds, hds⟩ := exists_chars_parenIf (ih hshort)
    exact ⟨_, chars_sign_eq_ok_iff.mpr ⟨ds, hds, rfl⟩⟩
  case binary =>
    intro op l r hop hl hr ihl ihr hshort
    simp only [hasShortIntegers_apply, List.forall_mem_cons, hasShortIntegers_parenIf] at hshort
    obtain ⟨ds, hds⟩ := exists_chars_parenIf (ihl hshort.1)
    obtain ⟨es, hes⟩ := exists_chars_parenIf (ihr hshort.2.1)
    obtain ⟨implicit, himplicit⟩ : ∃ implicit, (if op = .mul then isImplicitProduct (parenIf (leftNeedsParen op l) l)
        (parenIf (rightNeedsParen op r) r) else .ok false) = .ok implicit := by
      split_ifs
      · exact hr.exists_isImplicitProduct _ _
      · exact ⟨false, rfl⟩
    exact ⟨_, (chars_operator_eq_ok_iff hop).mpr ⟨implicit, himplicit, ds, hds, es, hes, rfl⟩⟩
  case call =>
    intro f args hf hargs hshort
    rw [hasShortIntegers_apply] at hshort
    obtain ⟨css, hcss⟩ := exists_charsAll fun a ha => (hargs a ha).2 (hshort a ha)
    exact ⟨_, by rw [chars, hcss]; rfl⟩

/-- Cutting the text of a constructed tree gives as many texts as the tree has terms, and each of them is that of the term behind
its sign. In front of the first one no plus is put if it begins with a minus. -/
theorem termTexts_chars (ht : t.Constructed) (hshort : t.HasShortIntegers) :
    ∃ cs, t.chars = .ok cs ∧ (termTexts (bareText cs)).length = t.terms.length ∧
      ∀ i term sign, t.terms[i]? = some (term, sign) → ∃ ds, term.chars = .ok ds ∧
        (termTexts (bareText cs))[i]? =
          some (if i = 0 ∧ sign = .plus ∧ '-' ∈ (bareText ds).head? then bareText ds else sign.char :: bareText ds) := by
  obtain ⟨cs, hcs⟩ := ht.exists_chars hshort
  obtain ⟨rows, hrows, hall, hunbroken⟩ := (ht.splitsAs cs hcs).rows
  have hcut : termTexts (bareText cs) = Text.signedTexts rows := by rw [hrows, Text.termTexts_of_unbroken hunbroken]
  rw [← ht.stripParens, ← terms, List.forall₂_iff_get] at hall
  obtain ⟨hlength, hall⟩ := hall
  refine ⟨cs, hcs, by rw [hcut, Text.length_signedTexts, hlength], fun i term sign hterm => ?_⟩
  obtain ⟨hi, hterm⟩ := List.getElem?_eq_some_iff.mp hterm
  have hi' : i < rows.length := hlength ▸ hi
  have hrow : IsRow (term, sign) rows[i] := by simpa [hterm] using hall i hi hi'
  obtain ⟨hsign, ds, hds, htext⟩ := hrow
  refine ⟨ds, hds, ?_⟩
  rw [hcut, Text.getElem?_signedTexts (List.getElem?_eq_getElem hi'), Text.signed, hsign, htext]

/-- Signs stand in the terms of `-x * z + -y * x^2 - (y - sin(x - 1))`, and in the parentheses of the last one. -/
theorem termTexts_chars_signed :
    let x := symbol "x"
    let y := symbol "y"
    let t := binary .sub (binary .add (binary .mul x.negate (symbol "z")) (binary .mul y.negate (binary .pow x (.const 2))))
      (binary .sub y (call "sin" [binary .sub x (.const 1)]))
    let texts := termTexts (bareText "-x * z + -y * x^2 - (y - sin(x - 1))".toList)
    t.Constructed ∧ t.HasShortIntegers ∧ t.chars = .ok "-x * z + -y * x^2 - (y - sin(x - 1))".toList ∧ texts.length = 3 ∧
      texts[0]? = some "-xz".toList ∧ texts[1]? = some "+-yx^2".toList ∧ texts[2]? = some "-(y-sin(x-1))".toList := by
  intro x y t texts
  have ht : t.Composed := by
    have hx : x.Composed := .letter 'x' (by decide)
    have hy : y.Composed := .letter 'y' (by decide)
    have hz : (symbol "z").Composed := .letter 'z' (by decide)
    have hsquare : (binary .pow x (.const 2)).Composed := .binary rfl hx (.integer 2 (by decide))
    have hargument : (binary .sub x (.const 1)).Composed := .binary rfl hx (.integer 1 (by decide))
    have hsine : (call "sin" [binary .sub x (.const 1)]).Composed :=
      .build (.inr ⟨⟨"sin", by decide, rfl⟩, by simp⟩) (by simpa using hargument) rfl
    exact .binary rfl (.binary rfl (.binary rfl hx.negate hz) (.binary rfl hy.negate hsquare)) (.binary rfl hy hsine)
  have hchars : t.chars = .ok "-x * z + -y * x^2 - (y - sin(x - 1))".toList := by decide +kernel
  obtain ⟨cs, hcs, hlength, hentries⟩ := termTexts_chars ht.constructed ht.hasShortIntegers
  obtain rfl := Except.ok.inj (hchars.symm.trans hcs)
  have hentry (i : ℕ) {term : Tree} {sign : Sign} {ds : List Char} (hterm : t.terms[i]? = some (term, sign))
      (hds : term.chars = .ok ds) :
      texts[i]? = some (if i = 0 ∧ sign = .plus ∧ '-' ∈ (bareText ds).head? then bareText ds else sign.char :: bareText ds) := by
    obtain ⟨ds', hds', h⟩ := hentries i term sign hterm
    obtain rfl := Except.ok.inj (hds'.symm.trans hds)
    exact h
  have hfirst : (binary .mul x.negate (symbol "z")).chars = .ok "-x * z".toList := by decide +kernel
  have hsecond : (binary .mul y.negate (binary .pow x (.const 2))).chars = .ok "-y * x^2".toList := by decide +kernel
  have hthird : (paren (binary .sub y (call "sin" [binary .sub x (.const 1)]))).chars = .ok "(y - sin(x - 1))".toList := by
    decide +kernel
  exact ⟨ht.constructed, ht.hasShortIntegers, hchars, hlength, (hentry 0 rfl hfirst).trans (by decide +kernel),
    (hentry 1 rfl hsecond).trans (by decide +kernel), (hentry 2 rfl hthird).trans (by decide +kernel)⟩

/-- No text is written of an integer of one digit too many, though it is a tree of one term. -/
theorem exists_terms_not_written :
    ∃ t : Tree, t.Constructed ∧ t.terms = [(t, .plus)] ∧
      ¬∃ cs, t.chars = .ok cs ∧ (termTexts (bareText cs)).length = t.terms.length := by
  refine ⟨.const ((10 ^ digitLimit : ℕ) : ℤ), .integer _, (isSummand_const _).termsFrom .plus, ?_⟩
  rintro ⟨cs, hcs, -⟩
  have hshort := (chars_integer_eq_ok_iff.mp hcs).1
  rw [Int.natAbs_natCast, Nat.length_toDigits_le_iff (by decide) (by decide)] at hshort
  exact lt_irrefl _ hshort

end Tree

end AlgebraTutor
