import AlgebraTutor.Proofs.Reader.Exchange
import AlgebraTutor.Proofs.Reader.Piece
import AlgebraTutor.Proofs.Tree.Layout
import AlgebraTutor.Proofs.Tree.Printer

/-!
# What is written can be put in parentheses

The text of a tree of integers, letters and calls has no blanks around it, sets no two stars side by side, and its
parentheses match, whatever the functions are called. A reader may take a function for a product of letters, but it can put
the text in parentheses.
-/

namespace AlgebraTutor

namespace Reader

/-! ### Written texts -/

/-- The character may stand at either end of a written text. -/
def isSolid (c : Char) : Bool :=
  !Text.isBlank c && c != '*'

/-- A text as trees are written: it begins and ends with solid characters, sets no two stars side by side, and its
parentheses match. -/
structure IsWritten (cs : List Char) : Prop where
  begins : ∃ c ∈ cs.head?, isSolid c = true
  ends : ∃ c ∈ cs.getLast?, isSolid c = true
  allowed : ∀ c ∈ cs, isAllowed c = true
  apart : cs.IsChain Text.Apart
  closed : closes 0 (parens cs) = true

theorem isSolid_of_isAlphanum {c : Char} (hc : c.isAlphanum = true) : isSolid c = true := by
  have hstar : c ≠ '*' := by
    rintro rfl
    exact absurd hc (by decide)
  simp [isSolid, Piece.not_isBlank_of_isAlphanum hc, hstar]

theorem isChain_apart_of_solid {cs : List Char} (h : ∀ c ∈ cs, isSolid c = true) : cs.IsChain Text.Apart := by
  induction cs with
  | nil => exact .nil
  | cons c cs ih =>
    rw [List.forall_mem_cons] at h
    exact Text.isChain_apart_of_ne (by simpa [isSolid] using (Bool.and_eq_true_iff.mp h.1).2) (ih h.2)

/-- A row of letters and digits is written. -/
theorem isWritten_word {w : List Char} (hne : w ≠ []) (hw : ∀ c ∈ w, c.isAlphanum = true) : IsWritten w where
  begins := ⟨w.head hne, List.head?_eq_some_head hne, isSolid_of_isAlphanum (hw _ (List.head_mem hne))⟩
  ends := ⟨w.getLast hne, List.getLast?_eq_some_getLast hne, isSolid_of_isAlphanum (hw _ (List.getLast_mem hne))⟩
  allowed c hc := by simp [isAllowed, hw c hc]
  apart := isChain_apart_of_solid fun c hc => isSolid_of_isAlphanum (hw c hc)
  closed := by
    have hnone : parens w = [] := parens_eq_nil fun c hc => by
      by_contra hparen
      rcases eq_of_paren? (Option.isSome_iff_ne_none.mpr hparen) with rfl | rfl <;> exact absurd (hw _ hc) (by decide)
    rw [hnone]
    rfl

theorem IsWritten.not_star {cs : List Char} (h : IsWritten cs) : '*' ∉ cs.head? ∧ '*' ∉ cs.getLast? := by
  obtain ⟨c, hc, hsolid⟩ := h.begins
  obtain ⟨d, hd, hsolid'⟩ := h.ends
  refine ⟨fun hstar => ?_, fun hstar => ?_⟩
  · obtain rfl := Option.mem_unique hc hstar
    exact absurd hsolid (by decide)
  · obtain rfl := Option.mem_unique hd hstar
    exact absurd hsolid' (by decide)

theorem closes_parens_append {cs ds : List Char} (hcs : closes 0 (parens cs) = true) (hds : closes 0 (parens ds) = true) :
    closes 0 (parens (cs ++ ds)) = true := by
  rw [parens_append]
  exact (@closes_append 0 0 _ hcs _).trans hds

/-- Two written texts are written with a sign between them, or with nothing. -/
theorem IsWritten.join {cs ds sign : List Char} (h : IsWritten cs) (h' : IsWritten ds) (hsign : sign.IsChain Text.Apart)
    (hallowed : ∀ c ∈ sign, isAllowed c = true ∧ paren? c = none) : IsWritten (cs ++ (sign ++ ds)) where
  begins := by
    obtain ⟨c, hc, hsolid⟩ := h.begins
    exact ⟨c, by simp [List.head?_append, Option.mem_def.mp hc], hsolid⟩
  ends := by
    obtain ⟨c, hc, hsolid⟩ := h'.ends
    exact ⟨c, by simp [List.getLast?_append, Option.mem_def.mp hc], hsolid⟩
  allowed := by
    simp only [List.forall_mem_append]
    exact ⟨h.allowed, fun c hc => (hallowed c hc).1, h'.allowed⟩
  apart := Text.isChain_apart_join h.apart (Text.isChain_apart_join hsign h'.apart (.inr h'.not_star.1)) (.inl h.not_star.2)
  closed := by
    have hnone : closes 0 (parens sign) = true := by
      rw [parens_eq_nil fun c hc => (hallowed c hc).2]
      rfl
    exact closes_parens_append h.closed (closes_parens_append hnone h'.closed)

theorem IsWritten.append {cs ds : List Char} (h : IsWritten cs) (h' : IsWritten ds) : IsWritten (cs ++ ds) :=
  @IsWritten.join cs ds [] h h' .nil (by simp)

theorem IsWritten.minus {cs : List Char} (h : IsWritten cs) : IsWritten ('-' :: cs) where
  begins := ⟨'-', rfl, by decide⟩
  ends := by
    obtain ⟨c, hc, hsolid⟩ := h.ends
    exact ⟨c, by simp [List.getLast?_cons, Option.mem_def.mp hc], hsolid⟩
  allowed := List.forall_mem_cons.mpr ⟨by decide, h.allowed⟩
  apart := Text.isChain_apart_of_ne (by decide) h.apart
  closed := by
    rw [parens_cons_none rfl]
    exact h.closed

/-- A written text, or none at all, is written in parentheses. -/
theorem isWritten_paren {cs : List Char} (h : cs = [] ∨ IsWritten cs) : IsWritten ('(' :: cs ++ [')']) where
  begins := ⟨'(', rfl, by decide⟩
  ends := ⟨')', by rw [List.getLast?_concat]; rfl, by decide⟩
  allowed := by
    have hcs : ∀ c ∈ cs, isAllowed c = true := h.elim (by rintro rfl; simp) IsWritten.allowed
    simp only [List.cons_append, List.forall_mem_cons, List.forall_mem_append, List.not_mem_nil, false_implies, implies_true,
      and_true]
    exact ⟨by decide, hcs, by decide⟩
  apart := by
    have hcs : cs.IsChain Text.Apart := h.elim (by rintro rfl; exact .nil) IsWritten.apart
    exact Text.isChain_apart_of_ne (by decide) (Text.isChain_apart_join hcs (.singleton _) (.inr (by decide)))
  closed := by
    have hcs : closes 0 (parens cs) = true := h.elim (by rintro rfl; rfl) IsWritten.closed
    have hclose := @closes_append 1 0 _ hcs [.mark .closeParen]
    rw [List.cons_append, parens_cons, parens_append]
    exact hclose

theorem isWritten_joinChars {css : List (List Char)} (hne : css ≠ []) (h : ∀ cs ∈ css, IsWritten cs) :
    IsWritten (Tree.joinChars [',', ' '] css) := by
  fun_induction Tree.joinChars [',', ' '] css with
  | case1 => exact absurd rfl hne
  | case2 cs => exact h cs (by simp)
  | case3 cs ds css ih =>
    rw [List.forall_mem_cons] at h
    rw [List.append_assoc]
    exact h.1.join (ih (by simp) h.2) (Text.isChain_apart_of_ne (by decide) (.singleton _)) (by decide)

/-- A written text is plain up to the letters that are set off, and can be put in parentheses. -/
theorem IsWritten.isGroupable {cs : List Char} (h : IsWritten cs) : IsGroupable (String.ofList cs) := by
  have htrimmed : Text.trimChars cs = cs := by
    obtain ⟨c, hc, hsolid⟩ := h.begins
    obtain ⟨d, hd, hsolid'⟩ := h.ends
    simp only [isSolid, Bool.and_eq_true, Bool.not_eq_true'] at hsolid hsolid'
    refine Text.trimChars_eq_self (fun e he => ?_) fun e he => ?_
    · exact Option.mem_unique hc he ▸ hsolid.1
    · exact Option.mem_unique hd he ▸ hsolid'.1
  have hspelling : cs.flatMap Text.plainSpelling = cs := by
    rw [List.flatMap_congr fun c hc => Piece.plainSpelling_of_isAllowed (h.allowed c hc)]
    simp
  have hplain : Text.plain cs = Text.setOffLetters (Text.lowerPi false cs) := by rw [Text.plain, htrimmed, hspelling]
  refine ⟨by rwa [String.toList_ofList], ?_, ?_⟩
  · rw [String.toList_ofList, hplain]
    exact Text.isChain_apart_iff.mp (Text.isChain_apart_setOffLetters (Text.isChain_apart_lowerPi h.apart))
  · rw [String.toList_ofList, hplain, parens_setOffLetters, parens_lowerPi]
    exact h.closed

end Reader

namespace Tree

open Reader

/-! ### Written trees -/

/-- The numbers of the tree are integers, and its symbols and functions are words. -/
structure IsWorded (t : Tree) : Prop where
  integers : ∀ value, .const value ∈ t.nodes → value.den = 1
  symbols : ∀ name, .symbol name ∈ t.nodes → IsWritten name.toList
  functions : t.CallsOnly fun f => IsWritten f.toList

variable {t u : Tree} {op : Op} {args : List Tree}

theorem isWorded_paren : (paren t).IsWorded ↔ t.IsWorded := by
  constructor
  · rintro ⟨hintegers, hsymbols, hfunctions⟩
    exact ⟨fun v hv => hintegers v (by simp [nodes, hv]), fun n hn => hsymbols n (by simp [nodes, hn]), callsOnly_paren.mp hfunctions⟩
  · rintro ⟨hintegers, hsymbols, hfunctions⟩
    exact ⟨fun v hv => hintegers v (by simpa [nodes] using hv), fun n hn => hsymbols n (by simpa [nodes] using hn),
      callsOnly_paren.mpr hfunctions⟩

theorem isWorded_stripParens : t.stripParens.IsWorded ↔ t.IsWorded := by
  induction t using stripParens.induct with
  | case1 content ih => rw [stripParens, ih, isWorded_paren]
  | case2 t h => rw [stripParens]; simpa using h

theorem isWorded_parenIf {needed : Bool} : (parenIf needed t).IsWorded ↔ t.IsWorded := by
  cases needed
  · rfl
  · exact isWorded_paren

theorem isWorded_apply : (apply op args).IsWorded ↔ (∀ f, op = .call f → IsWritten f.toList) ∧ ∀ a ∈ args, a.IsWorded := by
  constructor
  · rintro ⟨hintegers, hsymbols, hfunctions⟩
    rw [callsOnly_apply] at hfunctions
    refine ⟨hfunctions.1, fun a ha => ⟨fun v hv => hintegers v ?_, fun n hn => hsymbols n ?_, hfunctions.2 a ha⟩⟩
    · exact List.mem_cons_of_mem _ (mem_nodesAll.mpr ⟨a, ha, hv⟩)
    · exact List.mem_cons_of_mem _ (mem_nodesAll.mpr ⟨a, ha, hn⟩)
  · rintro ⟨hop, hargs⟩
    refine ⟨fun v hv => ?_, fun n hn => ?_, callsOnly_apply.mpr ⟨hop, fun a ha => (hargs a ha).functions⟩⟩
    · obtain ⟨a, ha, hv⟩ : ∃ a ∈ args, const v ∈ a.nodes := by simpa [nodes, mem_nodesAll] using hv
      exact (hargs a ha).integers v hv
    · obtain ⟨a, ha, hn⟩ : ∃ a ∈ args, symbol n ∈ a.nodes := by simpa [nodes, mem_nodesAll] using hn
      exact (hargs a ha).symbols n hn

theorem isWorded_const {value : Rat} : (const value).IsWorded ↔ value.den = 1 := by
  constructor
  · exact fun h => h.integers value (by simp [nodes])
  · intro hvalue
    refine ⟨fun v hv => ?_, by simp [nodes], callsOnly_const value⟩
    obtain rfl : v = value := by simpa [nodes] using hv
    exact hvalue

theorem isWorded_symbol {name : String} (h : IsWritten name.toList) : (symbol name).IsWorded := by
  refine ⟨by simp [nodes], fun n hn => ?_, callsOnly_symbol name⟩
  obtain rfl : n = name := by simpa [nodes] using hn
  exact h

theorem isWorded_negate : t.negate.IsWorded ↔ t.IsWorded := by
  rcases negate_cases t with ⟨value, hvalue, hnegate⟩ | hnegate
  · rw [hnegate, ← isWorded_stripParens, ← isWorded_stripParens (t := t), hvalue]
    simp [stripParens, isWorded_const]
  · simp [hnegate, isWorded_apply, isWorded_parenIf, isWorded_stripParens]

theorem isWorded_build (hbuild : build op args = .ok t) :
    t.IsWorded ↔ (∀ f, op = .call f → IsWritten f.toList) ∧ ∀ a ∈ args, a.IsWorded := by
  rcases build_eq_ok hbuild with ⟨f, rfl, rfl⟩ | ⟨u, rfl, rfl, rfl⟩ | ⟨l, r, hop, rfl, rfl⟩
  · simp [call, isWorded_apply, isWorded_stripParens]
  · simp [isWorded_negate]
  · simp [binary, isWorded_apply, isWorded_parenIf, isWorded_stripParens]

theorem isWritten_digits (n : Nat) : IsWritten (Nat.toDigits 10 n) :=
  isWritten_word Nat.toDigits_ne_nil fun c hc => by simp [Char.isAlphanum, Text.isDigit_of_mem_digits hc]

theorem isWritten_separator {op : Op} {implicit : Bool} {cs ds : List Char} (h : IsWritten cs) (h' : IsWritten ds) :
    IsWritten (cs ++ (separator implicit op ++ ds)) := by
  refine h.join h' ?_ ?_
  · cases op <;> cases implicit <;> exact Text.isChain_apart_iff.mpr rfl
  · cases op with
    | call => simp [separator]
    | _ => cases implicit <;> decide

mutual

/-- A tree whose numbers are integers and whose names are words is written. -/
theorem IsWorded.isWritten {t : Tree} (h : t.IsWorded) {cs : List Char} (hcs : t.chars = .ok cs) : IsWritten cs := by
  match t with
  | .const value =>
    obtain ⟨n, rfl⟩ : ∃ n : Int, value = n := ⟨value.num, (Rat.coe_int_num_of_den_eq_one (isWorded_const.mp h)).symm⟩
    obtain ⟨-, rfl⟩ := chars_integer_eq_ok_iff.mp hcs
    split
    · exact (isWritten_digits _).minus
    · exact isWritten_digits _
  | .symbol name =>
    obtain rfl := Except.ok.inj hcs
    exact h.symbols name (by simp [nodes])
  | .paren content =>
    obtain ⟨ds, hds, rfl⟩ := chars_paren_eq_ok_iff.mp hcs
    exact isWritten_paren (.inr ((isWorded_paren.mp h).isWritten hds))
  | .apply op args =>
    obtain ⟨hop, hargs⟩ := isWorded_apply.mp h
    by_cases hcall : ∃ f, op = .call f
    · obtain ⟨f, rfl⟩ := hcall
      obtain ⟨css, hcss, heq⟩ := Answer.bind_eq_ok_iff.mp hcs
      obtain rfl := Answer.pure_eq_ok_iff.mp heq
      rw [List.append_assoc]
      refine (hop f rfl).append (isWritten_paren ?_)
      have hwritten := isWritten_charsAll hargs hcss
      cases css with
      | nil => exact .inl rfl
      | cons cs css => exact .inr (isWritten_joinChars (by simp) hwritten)
    · have harithmetic : op.isArithmetic = true := by cases op <;> first | rfl | exact absurd ⟨_, rfl⟩ hcall
      match args with
      | [] => cases op <;> simp [chars] at hcs hcall
      | [u] =>
        cases op with
        | sub =>
          obtain ⟨ds, hds, rfl⟩ := chars_sign_eq_ok_iff.mp hcs
          exact ((hargs u (by simp)).isWritten hds).minus
        | _ => simp [chars] at hcs hcall
      | [l, r] =>
        obtain ⟨implicit, -, ds, hds, es, hes, rfl⟩ := (chars_operator_eq_ok_iff harithmetic).mp hcs
        exact isWritten_separator ((hargs l (by simp)).isWritten hds) ((hargs r (by simp)).isWritten hes)
      | _ :: _ :: _ :: _ => cases op <;> simp [chars] at hcs hcall

theorem isWritten_charsAll {ts : List Tree} (h : ∀ t ∈ ts, t.IsWorded) {css : List (List Char)} (hcss : charsAll ts = .ok css) :
    ∀ cs ∈ css, IsWritten cs := by
  match ts with
  | [] =>
    obtain rfl := Except.ok.inj hcss
    simp
  | t :: ts =>
    rw [List.forall_mem_cons] at h
    obtain ⟨cs, hcs, hlater⟩ := Answer.bind_eq_ok_iff.mp hcss
    obtain ⟨rest, hrest, heq⟩ := Answer.bind_eq_ok_iff.mp hlater
    obtain rfl := Answer.pure_eq_ok_iff.mp heq
    exact List.forall_mem_cons.mpr ⟨h.1.isWritten hcs, isWritten_charsAll h.2 hrest⟩

end

/-! ### Trees assembled of what values are laid out with -/

theorem isWritten_letters {w : String} (hne : w.toList ≠ []) (hw : ∀ c ∈ w.toList, c.isAlpha = true) : IsWritten w.toList :=
  isWritten_word hne fun c hc => by simp [Char.isAlphanum, hw c hc]

theorem isWritten_of_isReadableName {v : String} (hv : IsReadableName v) : IsWritten v.toList := by
  rcases hv with ⟨c, hc, rfl⟩ | hconstant
  · exact isWritten_letters (by simp) (by simp [hc])
  · simp only [isNamedConstant, Bool.or_eq_true, beq_iff_eq] at hconstant
    rcases hconstant with rfl | rfl <;> exact isWritten_letters (by decide) (by decide)

theorem isWritten_of_isDisplayName {f : String} (hf : Expr.IsDisplayName f) : IsWritten f.toList := by
  rcases hf with rfl | ⟨g, rfl⟩
  · exact isWritten_letters (by decide) (by decide)
  · cases g <;> exact isWritten_letters (by decide) (by decide)

theorem Assembled.isWorded (h : t.Assembled IsReadableName Expr.IsDisplayName) : t.IsWorded := by
  induction h with
  | integer n => exact isWorded_const.mpr (Rat.den_intCast n)
  | symbol hname => exact isWorded_symbol (isWritten_of_isReadableName hname)
  | build hop _ hbuild ih =>
    refine (isWorded_build hbuild).mpr ⟨?_, ih⟩
    rintro f rfl
    rcases hop with harithmetic | ⟨⟨g, hg, heq⟩, -⟩
    · simp [Op.isArithmetic] at harithmetic
    · exact Op.call.inj heq ▸ isWritten_of_isDisplayName hg

/-- What values are laid out as is written as a text that can be put in parentheses. -/
theorem Assembled.isGroupable (h : t.Assembled IsReadableName Expr.IsDisplayName) {text : String} (htext : t.text = .ok text) :
    IsGroupable text := by
  obtain ⟨cs, hcs, heq⟩ := Answer.bind_eq_ok_iff.mp htext
  obtain rfl := Answer.pure_eq_ok_iff.mp heq
  exact (h.isWorded.isWritten hcs).isGroupable

end Tree

end AlgebraTutor
