import Mathlib.Data.List.Perm.Basic
import AlgebraTutor.Proofs.Pattern.Likeness
import AlgebraTutor.Proofs.Pattern.LikeTerms
import AlgebraTutor.Proofs.Tree.Constructed

/-!
# What two like terms share

The likeness of a term that is no number spells its essence: its factors with an unknown, behind a sign or a number as the
divisor or not. In the text of a factor a star stands behind a blank, so the stars between the factors can be told from those
within them, and two terms have one likeness exactly if the factors of their essences are the same in some order.
-/

namespace AlgebraTutor

namespace Text

/-! ### Texts joined by stars -/

/-- A star stands behind a blank only. -/
def Spaced (c d : Char) : Prop :=
  d = '*' → c = ' '

/-- A text that can be told apart from others joined to it by stars: it begins with no star, ends with no blank, and in it every
star stands behind a blank. -/
structure IsFactorText (cs : List Char) : Prop where
  begins : ∃ c ∈ cs.head?, c ≠ '*'
  ends : ∃ c ∈ cs.getLast?, c ≠ ' '
  spaced : cs.IsChain Spaced

variable {cs ds : List Char}

theorem isChain_spaced_of_not_mem (h : '*' ∉ cs) : cs.IsChain Spaced := by
  induction cs with
  | nil => exact .nil
  | cons c cs ih =>
    have hcs : '*' ∉ cs := fun hmem => h (List.mem_cons_of_mem c hmem)
    refine List.isChain_cons.mpr ⟨fun d hd hstar => ?_, ih hcs⟩
    exact absurd (hstar ▸ List.mem_of_mem_head? hd) hcs

theorem isChain_spaced_append (hcs : cs.IsChain Spaced) (hds : ds.IsChain Spaced) (hhead : '*' ∉ ds.head?) :
    (cs ++ ds).IsChain Spaced := by
  refine List.isChain_append.mpr ⟨hcs, hds, fun c _ d hd hstar => ?_⟩
  exact absurd (hstar ▸ hd) hhead

/-- Texts with a star in front of each. -/
def starred (L : List (List Char)) : List Char :=
  L.flatMap fun cs => '*' :: cs

theorem starred_cons (cs : List Char) (L : List (List Char)) : starred (cs :: L) = '*' :: (cs ++ starred L) :=
  List.flatMap_cons

theorem starred_eq_intercalate {L : List (List Char)} (hne : L ≠ []) : starred L = '*' :: ['*'].intercalate L := by
  induction L with
  | nil => exact absurd rfl hne
  | cons cs L ih =>
    cases L with
    | nil => simp [starred, List.intercalate]
    | cons ds L => rw [starred_cons, ih (by simp)]; simp [List.intercalate]

/-- What follows a factor in a text of several ones does not begin inside a factor. -/
theorem eq_nil_of_append {e : List Char} (hcs : IsFactorText cs) (hds : IsFactorText (cs ++ e)) {L M : List (List Char)}
    (h : starred L = e ++ starred M) : e = [] := by
  cases e with
  | nil => rfl
  | cons c e =>
    cases L with
    | nil => simp [starred] at h
    | cons ds L =>
      obtain rfl : '*' = c := (List.cons.inj h).1
      obtain ⟨d, hd, hblank⟩ := hcs.ends
      exact absurd ((List.isChain_append.mp hds.spaced).2.2 d hd '*' rfl rfl) hblank

theorem starred_injective {L M : List (List Char)} (hL : ∀ cs ∈ L, IsFactorText cs) (hM : ∀ ds ∈ M, IsFactorText ds)
    (h : starred L = starred M) : L = M := by
  induction L generalizing M with
  | nil =>
    cases M with
    | nil => rfl
    | cons ds M => simp [starred] at h
  | cons cs L ih =>
    cases M with
    | nil => simp [starred] at h
    | cons ds M =>
      rw [List.forall_mem_cons] at hL hM
      rw [starred_cons, starred_cons, List.cons.injEq] at h
      rcases List.append_eq_append_iff.mp h.2 with ⟨e, rfl, hrest⟩ | ⟨e, rfl, hrest⟩
      · obtain rfl := eq_nil_of_append hL.1 hM.1 hrest
        rw [ih hL.2 hM.2 hrest, List.append_nil]
      · obtain rfl := eq_nil_of_append hM.1 hL.1 hrest
        rw [ih hL.2 hM.2 hrest.symm, List.append_nil]

/-- Texts of factors are told apart when they are joined by stars. -/
theorem intercalate_injective {L M : List (List Char)} (hL : ∀ cs ∈ L, IsFactorText cs) (hM : ∀ ds ∈ M, IsFactorText ds)
    (h : ['*'].intercalate L = ['*'].intercalate M) : L = M := by
  have hnil {M : List (List Char)} (hM : ∀ ds ∈ M, IsFactorText ds) (h : ['*'].intercalate M = []) : M = [] := by
    cases M with
    | nil => rfl
    | cons ds M =>
      obtain ⟨c, hc, -⟩ := (hM ds (by simp)).begins
      have hstarred := starred_cons ds M
      rw [starred_eq_intercalate (by simp), h, List.cons.injEq] at hstarred
      obtain ⟨rfl, -⟩ := List.append_eq_nil_iff.mp hstarred.2.symm
      simp at hc
  by_cases hempty : L = []
  · subst hempty
    exact (hnil hM h.symm).symm
  · have hempty' : M ≠ [] := by
      rintro rfl
      exact hempty (hnil hL h)
    refine starred_injective hL hM ?_
    rw [starred_eq_intercalate hempty, starred_eq_intercalate hempty', h]

end Text

namespace Tree

open Text (Spaced IsFactorText isChain_spaced_append isChain_spaced_of_not_mem)
open Reader (IsWritten)

variable {t u : Tree} {cs : List Char}

theorem isChain_spaced_joinChars {css : List (List Char)} (h : ∀ cs ∈ css, IsWritten cs ∧ cs.IsChain Spaced) :
    (joinChars [',', ' '] css).IsChain Spaced := by
  fun_induction joinChars [',', ' '] css with
  | case1 => exact .nil
  | case2 cs => exact (h cs (by simp)).2
  | case3 cs ds css ih =>
    rw [List.forall_mem_cons] at h
    rw [List.append_assoc]
    have hjoined := Reader.isWritten_joinChars (List.cons_ne_nil ds css) fun cs hcs => (h.2 cs hcs).1
    refine isChain_spaced_append h.1.2 (isChain_spaced_append (isChain_spaced_of_not_mem (by decide)) (ih h.2) ?_) (by simp)
    exact hjoined.not_star.1

/-- What is in parentheses is spaced like what is between them. -/
theorem isChain_spaced_group (hcs : cs = [] ∨ IsWritten cs) (h : cs.IsChain Spaced) : ('(' :: cs ++ [')']).IsChain Spaced := by
  have hhead : '*' ∉ (cs ++ [')']).head? := by
    rcases hcs with rfl | hwritten
    · simp
    · obtain ⟨c, hc, -⟩ := hwritten.begins
      rw [List.head?_append, Option.mem_def.mp hc]
      exact fun hstar => hwritten.not_star.1 (hc.trans hstar)
  rw [List.cons_append]
  exact @isChain_spaced_append ['('] _ (.singleton _) (isChain_spaced_append h (.singleton ')') (by simp)) hhead

theorem isChain_spaced_parenIf {needed : Bool} (h : t.IsWorded) (hspaced : ∀ cs, t.chars = .ok cs → cs.IsChain Spaced)
    (hcs : (parenIf needed t).chars = .ok cs) : cs.IsChain Spaced := by
  cases needed with
  | false => exact hspaced cs hcs
  | true =>
    obtain ⟨ds, hds, rfl⟩ := chars_paren_eq_ok_iff.mp hcs
    exact isChain_spaced_group (.inr (h.isWritten hds)) (hspaced ds hds)

theorem exists_of_mem_charsAll {ts : List Tree} {css : List (List Char)} (hcss : charsAll ts = .ok css) :
    ∀ cs ∈ css, ∃ t ∈ ts, t.chars = .ok cs := by
  induction ts generalizing css with
  | nil =>
    obtain rfl := Except.ok.inj hcss
    simp
  | cons t ts ih =>
    obtain ⟨cs, hcs, hlater⟩ := Answer.bind_eq_ok_iff.mp hcss
    obtain ⟨rest, hrest, heq⟩ := Answer.bind_eq_ok_iff.mp hlater
    obtain rfl := Answer.pure_eq_ok_iff.mp heq
    refine List.forall_mem_cons.mpr ⟨⟨t, List.mem_cons_self, hcs⟩, fun ds hds => ?_⟩
    obtain ⟨u, hu, hchars⟩ := ih hrest ds hds
    exact ⟨u, List.mem_cons_of_mem t hu, hchars⟩

/-- In the text of a constructed tree a star stands behind a blank only. -/
theorem Constructed.isChain_spaced (h : t.Constructed) : ∀ cs, t.chars = .ok cs → cs.IsChain Spaced := by
  refine h.shapes (motive := fun t => ∀ cs, t.chars = .ok cs → cs.IsChain Spaced) ?integer ?symbol ?sign ?binary ?call
  case integer =>
    intro n cs hcs
    exact isChain_spaced_of_not_mem (not_mem_chars_integer hcs (by decide) (by decide))
  case symbol =>
    intro v hv cs hcs
    obtain rfl := Except.ok.inj hcs
    exact isChain_spaced_of_not_mem (not_mem_of_isReadableName hv (by decide))
  case sign =>
    intro t ht ih cs hcs
    obtain ⟨ds, hds, rfl⟩ := chars_sign_eq_ok_iff.mp hcs
    have hwritten := (isWorded_parenIf.mpr ht.isWorded).isWritten hds
    exact isChain_spaced_append (.singleton '-') (isChain_spaced_parenIf ht.isWorded ih hds) hwritten.not_star.1
  case binary =>
    intro op l r hop hl hr ihl ihr cs hcs
    obtain ⟨implicit, -, ds, hds, es, hes, rfl⟩ := (chars_operator_eq_ok_iff hop).mp hcs
    have hwritten := (isWorded_parenIf.mpr hr.isWorded).isWritten hes
    have hright : (separator implicit op ++ es).IsChain Spaced ∧ '*' ∉ (separator implicit op ++ es).head? := by
      have hnone : separator implicit op = [] ∨ '*' ∉ (separator implicit op).head? ∧ (separator implicit op).IsChain Spaced := by
        cases op <;> cases implicit <;> simp [separator, Spaced]
      have hes := isChain_spaced_parenIf hr.isWorded ihr hes
      rcases hnone with hnil | ⟨hhead, hchain⟩
      · rw [hnil]
        exact ⟨hes, hwritten.not_star.1⟩
      · refine ⟨isChain_spaced_append hchain hes hwritten.not_star.1, ?_⟩
        cases hsep : separator implicit op with
        | nil => exact hwritten.not_star.1
        | cons c rest => simpa [hsep] using hhead
    exact isChain_spaced_append (isChain_spaced_parenIf hl.isWorded ihl hds) hright.1 hright.2
  case call =>
    intro f args hf hargs cs hcs
    obtain ⟨css, hcss, heq⟩ := Answer.bind_eq_ok_iff.mp hcs
    obtain rfl := Answer.pure_eq_ok_iff.mp heq
    have hname : '*' ∉ f.toList := fun hmem => absurd ((Reader.Piece.isAlpha_function hf).1 _ hmem) (by decide)
    have hargument : ∀ cs ∈ css, IsWritten cs ∧ cs.IsChain Spaced := fun cs hcs => by
      obtain ⟨a, ha, hchars⟩ := exists_of_mem_charsAll hcss cs hcs
      exact ⟨(hargs a ha).1.isWorded.isWritten hchars, (hargs a ha).2 cs hchars⟩
    have hjoined : joinChars [',', ' '] css = [] ∨ IsWritten (joinChars [',', ' '] css) := by
      cases css with
      | nil => exact .inl rfl
      | cons cs css => exact .inr (Reader.isWritten_joinChars (by simp) fun ds hds => (hargument ds hds).1)
    rw [List.append_assoc]
    refine isChain_spaced_append (isChain_spaced_of_not_mem hname) ?_ (by simp)
    exact isChain_spaced_group hjoined (isChain_spaced_joinChars hargument)

/-- The text of a constructed tree, in parentheses or not, can be told apart from others joined to it by stars. -/
theorem isFactorText_of_constructed (h : t.stripParens.Constructed) (hcs : t.chars = .ok cs) : IsFactorText cs := by
  have hworded : t.IsWorded := isWorded_stripParens.mp h.isWorded
  have hwritten := hworded.isWritten hcs
  obtain ⟨c, hc, hsolid⟩ := hwritten.begins
  obtain ⟨d, hd, hsolid'⟩ := hwritten.ends
  refine ⟨⟨c, hc, ?_⟩, ⟨d, hd, ?_⟩, ?_⟩
  · rintro rfl
    exact absurd hsolid (by decide)
  · rintro rfl
    exact absurd hsolid' (by decide)
  · clear hwritten hc hd
    induction t using stripParens.induct generalizing cs with
    | case1 content ih =>
      obtain ⟨ds, hds, rfl⟩ := chars_paren_eq_ok_iff.mp hcs
      have hcontent : content.IsWorded := isWorded_paren.mp hworded
      exact isChain_spaced_group (.inr (hcontent.isWritten hds)) (ih h hds hcontent)
    | case2 t hplain =>
      rw [stripParens.eq_2 t hplain] at h
      exact h.isChain_spaced cs hcs

/-! ### The two parts of a term -/

/-- What makes a term like others: its factors with an unknown, behind a sign and without a number as the divisor. A term in
parentheses stands for itself, unless it is taken within them. -/
def essenceOf (withinParens : Bool) : Tree → List Tree
  | .paren content => if withinParens then essenceOf true content else [.paren content]
  | .apply .sub [t] => essenceOf true t
  | .apply .mul [left, right] => (apply .mul [left, right]).factors.filter fun f => !f.isConstant
  | .apply .div [left, right] => if right.isConstant then essenceOf true left else [.apply .div [left, right]]
  | t => [t]

/-- What makes a term like others as it stands. -/
def essence (t : Tree) : List Tree :=
  essenceOf false t

/-- What a term has beside its essence: the numbers among its factors, its signs and its divisors without an unknown. -/
def cofactorOf (withinParens : Bool) : Tree → Tree
  | .paren content => if withinParens then cofactorOf true content else .const 1
  | .apply .sub [t] => (cofactorOf true t).negate
  | .apply .mul [left, right] => productOf ((apply .mul [left, right]).factors.filter (·.isConstant))
  | .apply .div [left, right] => if right.isConstant then binary .div (cofactorOf true left) right else .const 1
  | _ => .const 1

/-- What a term has beside its essence, as it stands. -/
def cofactor (t : Tree) : Tree :=
  cofactorOf false t

/-- The trees have the texts. -/
def HaveTexts (ts : List Tree) (texts : List String) : Prop :=
  List.Forall₂ (fun t s => t.text = .ok s) ts texts

theorem haveTexts_singleton {s : String} (h : t.text = .ok s) : HaveTexts [t] [s] :=
  .cons h .nil

theorem unknownFactors_eq_ok_iff {fs : List Tree} {texts : List String} :
    unknownFactors fs = .ok texts ↔ HaveTexts (fs.filter fun f => !f.isConstant) texts := by
  induction fs generalizing texts with
  | nil => simp [unknownFactors, HaveTexts, eq_comm]
  | cons f fs ih =>
    rw [unknownFactors]
    split_ifs with hconstant
    · rw [ih, List.filter_cons_of_neg (by simp [hconstant])]
    · rw [List.filter_cons_of_pos (by simpa using hconstant), HaveTexts, List.forall₂_cons_left_iff, Answer.bind_eq_ok_iff]
      constructor
      · rintro ⟨s, hs, h⟩
        obtain ⟨rest, hrest, h⟩ := Answer.bind_eq_ok_iff.mp h
        exact ⟨s, rest, hs, ih.mp hrest, (Answer.pure_eq_ok_iff.mp h).symm⟩
      · rintro ⟨s, rest, hs, hrest, rfl⟩
        exact ⟨s, hs, Answer.bind_eq_ok_iff.mpr ⟨rest, ih.mpr hrest, rfl⟩⟩

/-- Texts as a likeness spells them. -/
def spellEssence (texts : List String) : String :=
  "*".intercalate (sortTexts texts)

theorem spellEssence_singleton (s : String) : spellEssence [s] = s :=
  rfl

/-- Is the likeness that of the numbers? -/
def countsAsNumber (withinParens : Bool) : Tree → Bool
  | .paren content => withinParens && content.isConstant
  | t => t.isConstant

theorem countsAsNumber_true (t : Tree) : countsAsNumber true t = t.isConstant := by
  cases t with
  | paren content => rw [countsAsNumber, Bool.true_and, isConstant_paren]
  | const | symbol | apply => rfl

theorem text_eq_ok_iff_haveTexts {key : String} : t.text = .ok key ↔ ∃ texts, HaveTexts [t] texts ∧ key = spellEssence texts := by
  constructor
  · exact fun h => ⟨[key], haveTexts_singleton h, (spellEssence_singleton key).symm⟩
  · rintro ⟨texts, htexts, rfl⟩
    obtain ⟨s, rest, hs, hnil, rfl⟩ := List.forall₂_cons_left_iff.mp htexts
    obtain rfl := List.forall₂_nil_left_iff.mp hnil
    exact hs

theorem countsAsNumber_apply (withinParens : Bool) (op : Op) (args : List Tree) :
    countsAsNumber withinParens (apply op args) = (apply op args).isConstant :=
  rfl

theorem countsAsNumber_symbol (withinParens : Bool) (name : String) : countsAsNumber withinParens (symbol name) = isNamedConstant name :=
  isConstant_symbol name

/-- The likeness of a term that is no number spells its essence. -/
theorem likenessOf_eq_ok_iff {withinParens : Bool} {key : String} : likenessOf withinParens t = .ok key ↔
    if countsAsNumber withinParens t then key = constantLikeness
    else ∃ texts, HaveTexts (essenceOf withinParens t) texts ∧ key = spellEssence texts := by
  have hnumber {p : Prop} : (Except.ok constantLikeness : Answer String) = .ok key ↔ if true = true then key = constantLikeness else p := by
    rw [if_pos rfl, Except.ok.injEq, eq_comm]
  fun_induction likenessOf withinParens t with
  | case1 content ih => simpa [countsAsNumber_true, isConstant_paren, essenceOf] using ih
  | case2 withinParens content hwithin =>
    simp only [Bool.not_eq_true] at hwithin
    subst hwithin
    exact text_eq_ok_iff_haveTexts
  | case3 => exact hnumber
  | case4 withinParens name hname =>
    rw [countsAsNumber_symbol, hname]
    exact hnumber
  | case5 withinParens name hname =>
    have htext : (symbol name).text = .ok name := congrArg Except.ok String.ofList_toList
    rw [countsAsNumber_symbol, if_neg hname, ← htext]
    exact text_eq_ok_iff_haveTexts
  | case6 withinParens t hconstant =>
    rw [countsAsNumber_apply, isConstant_apply_one, hconstant]
    exact hnumber
  | case7 withinParens t hconstant ih =>
    rw [countsAsNumber_true] at ih
    rw [countsAsNumber_apply, isConstant_apply_one]
    exact ih
  | case8 withinParens left right hconstant | case10 withinParens left right hconstant | case13 withinParens op args _ _ _ hconstant =>
    rw [countsAsNumber_apply, hconstant]
    exact hnumber
  | case9 withinParens left right hconstant =>
    rw [countsAsNumber_apply, if_neg hconstant, Answer.bind_eq_ok_iff]
    simp only [unknownFactors_eq_ok_iff, Answer.pure_eq_ok_iff, eq_comm (b := key), spellEssence, essenceOf]
  | case11 withinParens left right hconstant hright ih =>
    rw [countsAsNumber_true] at ih
    rw [countsAsNumber_apply, isConstant_apply_two, hright, Bool.and_true, essenceOf, if_pos hright]
    exact ih
  | case12 withinParens left right hconstant hright =>
    rw [countsAsNumber_apply, if_neg hconstant, essenceOf, if_neg hright]
    exact text_eq_ok_iff_haveTexts
  | case14 withinParens op args hsub hmul hdiv hconstant =>
    rw [countsAsNumber_apply, if_neg hconstant, essenceOf.eq_5]
    · exact text_eq_ok_iff_haveTexts
    · rintro content ⟨⟩
    · rintro u ⟨⟩
      exact hsub u rfl rfl
    · rintro l r ⟨⟩
      exact hmul l r rfl rfl
    · rintro l r ⟨⟩
      exact hdiv l r rfl rfl

/-! ### Likenesses that are the same -/

theorem constructed_of_mem_factorsFrom (h : t.stripParens.Constructed) : ∀ f ∈ factorsFrom t, f.stripParens.Constructed := by
  fun_induction factorsFrom t with
  | case1 content ih => exact ih h
  | case2 left right ihl ihr =>
    have hoperands := h.operands
    exact List.forall_mem_append.mpr ⟨ihl (hoperands left (by simp)), ihr (hoperands right (by simp))⟩
  | case3 t => simpa using h

theorem constructed_of_mem_essenceOf (withinParens : Bool) (h : t.stripParens.Constructed) :
    ∀ f ∈ essenceOf withinParens t, f.stripParens.Constructed := by
  fun_induction essenceOf withinParens t with
  | case1 content ih => exact ih h
  | case2 | case6 | case7 => simpa using h
  | case3 withinParens t ih => exact ih (h.operands t (by simp))
  | case4 withinParens left right => exact fun f hf => constructed_of_mem_factorsFrom h f (List.mem_of_mem_filter hf)
  | case5 withinParens left right hright ih => exact ih (h.operands left (by simp))

theorem isFactorText_of_haveTexts {ts : List Tree} {texts : List String} (hts : ∀ t ∈ ts, t.stripParens.Constructed)
    (h : HaveTexts ts texts) : ∀ s ∈ texts, IsFactorText s.toList := by
  intro s hs
  obtain ⟨t, ht, htext⟩ := exists_of_forall₂ (R := fun s t => text t = .ok s) h.flip hs
  obtain ⟨cs, hcs, rfl⟩ := Answer.map_eq_ok_iff.mp htext
  rw [String.toList_ofList]
  exact isFactorText_of_constructed (hts t ht) hcs

/-- What is spelled alike has the same texts in some order. -/
theorem perm_of_spellEssence_eq {texts texts' : List String} (htexts : ∀ s ∈ texts, IsFactorText s.toList)
    (htexts' : ∀ s ∈ texts', IsFactorText s.toList) (h : spellEssence texts = spellEssence texts') : texts.Perm texts' := by
  have hfactors {texts : List String} (htexts : ∀ s ∈ texts, IsFactorText s.toList) :
      ∀ cs ∈ (sortTexts texts).map String.toList, IsFactorText cs :=
    List.forall_mem_map.mpr fun s hs => htexts s ((sortTexts_perm texts).subset hs)
  have hjoined := congrArg String.toList h
  rw [spellEssence, spellEssence, String.toList_intercalate, String.toList_intercalate] at hjoined
  have hsorted := Text.intercalate_injective (hfactors htexts) (hfactors htexts') hjoined
  have hsame : sortTexts texts = sortTexts texts' := List.map_injective_iff.mpr (fun _ _ => String.toList_injective) hsorted
  exact (sortTexts_perm texts).symm.trans (hsame ▸ sortTexts_perm texts')

/-- Constructed trees are told apart by their texts, in whatever order they stand. -/
theorem perm_of_haveTexts {ts us : List Tree} {texts texts' : List String} (hts : ∀ t ∈ ts, t.stripParens.Constructed)
    (hus : ∀ u ∈ us, u.stripParens.Constructed) (h : HaveTexts ts texts) (h' : HaveTexts us texts') (hperm : texts.Perm texts') :
    ts.Perm us := by
  have hunique : Relator.RightUnique fun s t => t.stripParens.Constructed ∧ text t = .ok s := by
    rintro s t u ⟨ht, htext⟩ ⟨hu, htext'⟩
    obtain ⟨cs, hcs, hs⟩ := Answer.map_eq_ok_iff.mp htext
    obtain ⟨ds, hds, heq⟩ := Answer.map_eq_ok_iff.mp htext'
    obtain rfl : ds = cs := String.ofList_inj.mp (heq.trans hs.symm)
    exact eq_of_chars ht hu hcs hds
  have htrees {vs : List Tree} {ss : List String} (hvs : ∀ v ∈ vs, v.stripParens.Constructed) (h : HaveTexts vs ss) :
      List.Forall₂ (fun s v => v.stripParens.Constructed ∧ text v = .ok s) ss vs :=
    ((List.forall₂_and_left vs ss).mpr ⟨hvs, h⟩).flip
  exact List.rel_perm_imp hunique (htrees hts h) (htrees hus h') hperm

/-- Two constructed terms that are no numbers have one likeness exactly if their essences are the same in some order. -/
theorem likeness_eq_iff {key key' : String} (ht : t.stripParens.Constructed) (hu : u.stripParens.Constructed)
    (hnumber : countsAsNumber false t = false) (hnumber' : countsAsNumber false u = false) (h : likeness t = .ok key)
    (h' : likeness u = .ok key') : key = key' ↔ t.essence.Perm u.essence := by
  rw [likeness, likenessOf_eq_ok_iff, hnumber, if_neg Bool.false_ne_true] at h
  rw [likeness, likenessOf_eq_ok_iff, hnumber', if_neg Bool.false_ne_true] at h'
  obtain ⟨texts, htexts, rfl⟩ := h
  obtain ⟨texts', htexts', rfl⟩ := h'
  have hts := constructed_of_mem_essenceOf false ht
  have hus := constructed_of_mem_essenceOf false hu
  constructor
  · intro hsame
    exact perm_of_haveTexts hts hus htexts htexts'
      (perm_of_spellEssence_eq (isFactorText_of_haveTexts hts htexts) (isFactorText_of_haveTexts hus htexts') hsame)
  · intro hperm
    have hunique : Relator.RightUnique fun t s => text t = .ok s := fun _ _ _ h h' => Except.ok.inj (h.symm.trans h')
    rw [spellEssence, spellEssence, sortTexts_eq_of_perm (List.rel_perm_imp hunique htexts htexts' hperm)]

end Tree

end AlgebraTutor
