import AlgebraTutor.Proofs.Answer
import AlgebraTutor.Proofs.Reader.Binding
import AlgebraTutor.Proofs.Reader.PieceTokens
import AlgebraTutor.Proofs.Tree.Composed
import AlgebraTutor.Proofs.Tree.Printer

/-!
# Reading a written tree

A composed tree is written in pieces, and the grammar derives from their tokens a phrase that stands for the tree, by the
rules that the precedence of the tree allows. So a composed tree is read back from its text, and what is read from a
text without decimals is such a tree.
-/

namespace AlgebraTutor.Reader

open Phrase (HasLevel IsOperand IsFactor IsProduct IsSum)

namespace Piece

variable {ps qs : List Piece}

/-! ### Putting pieces together -/

theorem IsOperandText.begins_of_head (h : IsOperandText ps) {p : Piece} (hp : p ∈ ps.head?) : p.begins = true := by
  obtain ⟨q, hq, hbegins⟩ := h.begins
  rwa [Option.mem_unique hp hq]

theorem IsOperandText.ends_of_getLast (h : IsOperandText ps) {p : Piece} (hp : p ∈ ps.getLast?) : p.ends = true := by
  obtain ⟨q, hq, hends⟩ := h.ends
  rwa [Option.mem_unique hp hq]

theorem isOperandText_singleton {p : Piece} (hp : p.Proper) (hbegins : p.begins = true) (hends : p.ends = true) :
    IsOperandText [p] :=
  ⟨by simpa using hp, .singleton p, ⟨p, rfl, hbegins⟩, p, rfl, hends⟩

theorem IsOperandText.cons (h : IsOperandText ps) {p : Piece} (hp : p.Proper) (hbegins : p.begins = true)
    (hends : p.ends = false) : IsOperandText (p :: ps) where
  proper := List.forall_mem_cons.mpr ⟨hp, h.proper⟩
  alternate := List.isChain_cons.mpr ⟨fun q hq => by simp [hends, h.begins_of_head hq], h.alternate⟩
  begins := ⟨p, rfl, hbegins⟩
  ends := by
    obtain ⟨q, hq, hends⟩ := h.ends
    exact ⟨q, by simp [List.getLast?_cons, Option.mem_def.mp hq], hends⟩

theorem IsOperandText.concat (h : IsOperandText ps) {p : Piece} (hp : p.Proper) (hbegins : p.begins = false)
    (hends : p.ends = true) : IsOperandText (ps ++ [p]) where
  proper := List.forall_mem_append.mpr ⟨h.proper, by simpa using hp⟩
  alternate := by
    refine List.isChain_append.mpr ⟨h.alternate, .singleton p, fun q hq r hr => ?_⟩
    obtain rfl : p = r := by simpa using hr
    simp [hbegins, h.ends_of_getLast hq]
  begins := by
    obtain ⟨q, hq, hbegins⟩ := h.begins
    exact ⟨q, by simp [List.head?_append, Option.mem_def.mp hq], hbegins⟩
  ends := ⟨p, by simp, hends⟩

/-- Two operands with a piece between them that belongs to neither. -/
theorem IsOperandText.append (h : IsOperandText ps) (h' : IsOperandText qs) {p : Piece} (hp : p.Proper)
    (hbegins : p.begins = false) (hends : p.ends = false) : IsOperandText (ps ++ p :: qs) where
  proper := List.forall_mem_append.mpr ⟨h.proper, List.forall_mem_cons.mpr ⟨hp, h'.proper⟩⟩
  alternate := by
    refine List.isChain_append.mpr ⟨h.alternate, List.isChain_cons.mpr ⟨fun q hq => ?_, h'.alternate⟩, fun q hq r hr => ?_⟩
    · simp [hends, h'.begins_of_head hq]
    · obtain rfl : p = r := by simpa using hr
      simp [hbegins, h.ends_of_getLast hq]
  begins := by
    obtain ⟨q, hq, hbegins⟩ := h.begins
    exact ⟨q, by simp [List.head?_append, Option.mem_def.mp hq], hbegins⟩
  ends := by
    obtain ⟨q, hq, hends⟩ := h'.ends
    exact ⟨q, by simp [List.getLast?_append, List.getLast?_cons, Option.mem_def.mp hq], hends⟩

/-- A number at the end of one operand and a name at the beginning of another make a multiple. -/
theorem IsOperandText.fuse {n : Nat} {w : String} (h : IsOperandText (ps ++ [.number n]))
    (h' : IsOperandText (.name w :: qs)) (hfuses : Tree.fusesWithDigits w = false) :
    IsOperandText (ps ++ .multiple n w :: qs) where
  proper := by
    have hnumber := (List.forall_mem_append.mp h.proper).2 (.number n) (List.mem_singleton_self _)
    obtain ⟨hname, hlater⟩ := List.forall_mem_cons.mp h'.proper
    exact List.forall_mem_append.mpr
      ⟨(List.forall_mem_append.mp h.proper).1, List.forall_mem_cons.mpr ⟨⟨hnumber, hname, hfuses⟩, hlater⟩⟩
  alternate := by
    obtain ⟨hfront, -, hjoin⟩ := List.isChain_append.mp h.alternate
    obtain ⟨hhead, hlater⟩ := List.isChain_cons.mp h'.alternate
    refine List.isChain_append.mpr ⟨hfront, List.isChain_cons.mpr ⟨hhead, hlater⟩, fun q hq r hr => ?_⟩
    obtain rfl : .multiple n w = r := by simpa using hr
    exact hjoin q hq (.number n) rfl
  begins := by
    obtain ⟨q, hq, hbegins⟩ := h.begins
    cases ps with
    | nil => exact ⟨_, rfl, rfl⟩
    | cons p ps => exact ⟨q, hq, hbegins⟩
  ends := by
    obtain ⟨q, hq, hends⟩ := h'.ends
    rcases List.eq_nil_or_concat qs with rfl | ⟨qs, r, rfl⟩
    · exact ⟨.multiple n w, by simp, rfl⟩
    · exact ⟨q, by simpa [List.getLast?_append, List.getLast?_cons] using hq, hends⟩

/-- Pieces whose tokens have matching parentheses have balanced ones. -/
theorem isBalanced_of_closes (h : closes 0 (ps.flatMap spelled) = true) : isBalanced (lexemes ps) = true := by
  have hcount (depth : Nat) (ts : List Token) (hts : closes depth ts = true) :
      ts.count (.mark .closeParen) = ts.count (.mark .openParen) + depth := by
    induction ts generalizing depth with
    | nil => simpa using (beq_iff_eq.mp hts).symm
    | cons t ts ih =>
      by_cases hopen : t = .mark .openParen
      · subst hopen
        have := ih (depth + 1) hts
        simp; omega
      · by_cases hclose : t = .mark .closeParen
        · subst hclose
          cases depth with
          | zero => simp [closes] at hts
          | succ depth =>
            have := ih depth hts
            simp; omega
        · rw [closes_cons hopen hclose] at hts
          simpa [hopen, hclose] using ih depth hts
  have hpiece (p : Piece) : p.spelled.count (.mark .openParen) + (p.atomLexemes ++ p.signLexemes).count (.mark .closeParen) =
      p.spelled.count (.mark .closeParen) + (p.atomLexemes ++ p.signLexemes).count (.mark .openParen) := by
    cases p with
    | operator op => cases op <;> rfl
    | _ => rfl
  have hpieces : (ps.flatMap spelled).count (.mark .openParen) + (lexemes ps).count (.mark .closeParen) =
      (ps.flatMap spelled).count (.mark .closeParen) + (lexemes ps).count (.mark .openParen) := by
    rw [lexemes]
    clear h
    induction ps with
    | nil => rfl
    | cons p ps ih =>
      simp only [List.flatMap_cons, List.count_append] at ih ⊢
      have := hpiece p
      simp only [List.count_append] at this
      omega
  have htokens := hcount 0 _ h
  rw [isBalanced, beq_iff_eq]
  omega

/-! ### Writing a tree in pieces -/

/-- The tree is written in the pieces, and the grammar reads their tokens as the phrase by the rules of its precedence. -/
structure Writes (ps : List Piece) (q : Phrase) (t : Tree) : Prop where
  chars : t.chars = .ok (text ps)
  operand : IsOperandText ps
  closed : closes 0 (ps.flatMap spelled) = true
  level : HasLevel t.precedence (ps.flatMap tokens) q
  number : ∀ value, t = .const value → ∃ front n, ps = front ++ [.number n]
  name : ∀ value, ∃ implicit, Tree.isImplicitProduct (.const value) t = .ok implicit ∧
    (implicit = true → ∃ w rest, ps = .name w :: rest ∧ Tree.fusesWithDigits w = false)

/-- The phrase stands for the tree, wherever the names of the pieces are known. -/
def Means (ps : List Piece) (q : Phrase) (t : Tree) : Prop :=
  ∀ text vars, (∀ p ∈ ps, p.Known vars) → treeOf text vars q = .ok t

theorem ofText_of_writes {q : Phrase} {t u : Tree} (h : Writes ps q t) (hmeans : Means ps q u) :
    ∃ s, t.text = .ok s ∧ Tree.ofText s = .ok u := by
  refine ⟨String.ofList (text ps), by rw [Tree.text, h.chars]; rfl, ?_⟩
  have hwhole := @IsSum.whole _ _ h.level.2.2.2 [] ⟨⟨by simp, by simp⟩, by simp⟩ (by simp) (by simp)
  rw [List.append_nil] at hwhole
  obtain ⟨vars, hknown, hread⟩ := exists_known_of_derives h.operand h.closed (isBalanced_of_closes h.closed) hwhole
  exact hread u (hmeans _ vars hknown)

/-! ### Leaves -/

theorem writes_name {w : String} (hw : IsName w) : Writes [.name w] (.name w) (.symbol w) where
  chars := by simp [Tree.chars, text, chars, atom, signs]
  operand := isOperandText_singleton hw rfl rfl
  closed := rfl
  level := by
    have hoperand : IsOperand [.word w] (.name w) := fun _ hends => .name hends
    exact hoperand.level _
  number := nofun
  name := fun _ => ⟨!Tree.fusesWithDigits w, rfl, fun hfollows => ⟨w, [], rfl, by simpa using hfollows⟩⟩

theorem means_name (w : String) : Means [.name w] (.name w) (.symbol w) :=
  fun _ _ hknown => treeOf_name_eq_ok_iff.mpr ⟨rfl, hknown _ (List.mem_singleton_self _)⟩

/-- The phrase of a number is a call on its literal. -/
def numberPhrase (n : Nat) : Phrase :=
  .call "integer" [.literal (.integer 10 (Nat.toDigits 10 n))]

theorem isOperand_number {n : Nat} (hn : (Nat.toDigits 10 n).length ≤ Tree.digitLimit) :
    IsOperand (numberTokens n) (numberPhrase n) := by
  have hliteral : IsOperand [.literal (.integer 10 (Nat.toDigits 10 n))] (.literal (.integer 10 (Nat.toDigits 10 n))) :=
    fun _ hends => .literal (Literal.isWellFormed_digits hn) hends
  intro rest hends
  exact .call (.lastArg (hliteral.factor.product.sum.closed rest)) hends

theorem treeOf_number {n : Nat} (hn : (Nat.toDigits 10 n).length ≤ Tree.digitLimit) (text : String) (vars : List Char) :
    treeOf text vars (numberPhrase n) = .ok (.const n) :=
  treeOf_call_eq_ok_iff.mpr (.inl (operandTree?_eq_ok_iff.mpr
    (.inl ⟨.inl rfl, _, n, rfl, Literal.value?_digits hn, rfl⟩)))

theorem exists_writes_integer {n : Int} (hn : (Nat.toDigits 10 n.natAbs).length ≤ Tree.digitLimit) :
    ∃ ps q, Writes ps q (.const n) ∧ Means ps q (.const n) := by
  have hnumber : IsOperandText [.number n.natAbs] := isOperandText_singleton hn rfl rfl
  have hfollows (value : Rat) : Tree.isImplicitProduct (.const value) (.const n) = .ok false := rfl
  by_cases hneg : n < 0
  · refine ⟨[.minus, .number n.natAbs], .negative (numberPhrase n.natAbs), ⟨?_, hnumber.cons trivial rfl rfl, rfl, ?_,
      fun _ _ => ⟨[.minus], n.natAbs, rfl⟩, fun value => ⟨false, hfollows value, nofun⟩⟩, fun text vars _ => ?_⟩
    · exact Tree.chars_integer_eq_ok_iff.mpr ⟨hn, by simp [hneg, text, Piece.chars, atom, signs]⟩
    · have hlevel : (Tree.const n).precedence = 3 := if_pos (Rat.intCast_neg_iff.mpr hneg)
      rw [hlevel]
      exact (isOperand_number hn).factor.negative.level (by omega)
    · refine treeOf_negative_eq_ok_iff.mpr ⟨_, treeOf_number hn text vars, ?_⟩
      have hvalue : -(n.natAbs : Int) = n := by omega
      rw [← Rat.intCast_natCast, ← hvalue, Rat.intCast_neg]
      simp [Tree.negate, Tree.stripParens]
  · have hvalue : n = n.natAbs := by omega
    refine ⟨[.number n.natAbs], numberPhrase n.natAbs, ⟨?_, hnumber, rfl, ?_, fun _ _ => ⟨[], n.natAbs, rfl⟩,
      fun value => ⟨false, hfollows value, nofun⟩⟩, fun text vars _ => ?_⟩
    · exact Tree.chars_integer_eq_ok_iff.mpr ⟨hn, by simp [hneg, text, Piece.chars, atom, signs]⟩
    · exact (isOperand_number hn).level _
    · rw [treeOf_number hn, hvalue, Rat.intCast_natCast, Int.natAbs_natCast]

/-! ### Parentheses and signs -/

theorem Writes.paren {q : Phrase} {t : Tree} (h : Writes ps q t) :
    Writes (.openParen :: (ps ++ [.closeParen])) q (.paren t) where
  chars := Tree.chars_paren_eq_ok_iff.mpr ⟨_, h.chars, by simp [text, Piece.chars, atom, signs]⟩
  operand := (@IsOperandText.concat _ h.operand .closeParen trivial rfl rfl).cons trivial rfl rfl
  closed := by
    have hclosed := @closes_append 1 0 _ h.closed [.mark .closeParen]
    simpa [spelled, closes] using hclosed
  level := by
    have hoperand := h.level.2.2.2.operand
    simpa [tokens, written, spelled] using hoperand.level _
  number := nofun
  name := fun _ => ⟨false, rfl, nofun⟩

theorem Writes.parenIf {q : Phrase} {t : Tree} (h : Writes ps q t) (needed : Bool) :
    ∃ qs, Writes qs q (Tree.parenIf needed t) ∧ ∀ vars, (∀ p ∈ qs, p.Known vars) → ∀ p ∈ ps, p.Known vars := by
  cases needed with
  | false => exact ⟨ps, h, fun _ hknown => hknown⟩
  | true => exact ⟨_, h.paren, fun _ hknown p hp => hknown p (by simp [hp])⟩

theorem Writes.negative {q : Phrase} {t : Tree} (h : Writes ps q t) (hprecedence : Tree.signPrecedence ≤ t.precedence) :
    Writes (.minus :: ps) q.negative (.apply .sub [t]) where
  chars := Tree.chars_sign_eq_ok_iff.mpr ⟨_, h.chars, by simp [text, Piece.chars, atom, signs]⟩
  operand := h.operand.cons trivial rfl rfl
  closed := h.closed
  level := (h.level.2.1 hprecedence).negative.level (n := Tree.signPrecedence) (by decide)
  number := nofun
  name := fun _ => ⟨false, rfl, nofun⟩

/-! ### Operators -/

/-- The operation of the grammar that an operator is read as. -/
def operationOf : Op → Operation
  | .add => .add
  | .sub => .sub
  | .mul => .mul
  | .div => .div
  | .pow | .call _ => .pow

theorem op?_operationOf {op : Op} (hop : op.isArithmetic = true) : (operationOf op).op? = some op := by
  cases op with
  | call f => simp [Op.isArithmetic] at hop
  | _ => rfl

theorem leftNeedsParen_parenIf (op : Op) (t : Tree) :
    Tree.leftNeedsParen op (Tree.parenIf (Tree.leftNeedsParen op t) t) = false := by
  cases hneeded : Tree.leftNeedsParen op t with
  | false => exact hneeded
  | true => cases op <;> rfl

theorem rightNeedsParen_parenIf {op : Op} (hop : op.isArithmetic = true) (t : Tree) :
    Tree.rightNeedsParen op (Tree.parenIf (Tree.rightNeedsParen op t) t) = false := by
  cases hneeded : Tree.rightNeedsParen op t with
  | false => exact hneeded
  | true =>
    cases op with
    | call f => simp [Op.isArithmetic] at hop
    | _ => rfl

theorem le_of_leftNeedsParen {op : Op} {t : Tree} (hleft : Tree.leftNeedsParen op t = false) :
    op.precedence ≤ t.precedence ∧ (op = .pow → 5 ≤ t.precedence) := by
  unfold Tree.leftNeedsParen at hleft
  split at hleft
  · rename_i hpow
    subst hpow
    have hbound := of_decide_eq_false hleft
    rw [Op.precedence] at hbound ⊢
    omega
  · exact ⟨Nat.not_lt.mp (of_decide_eq_false hleft), fun hpow => by contradiction⟩

theorem le_of_rightNeedsParen {op : Op} {t : Tree} (hright : Tree.rightNeedsParen op t = false) :
    op.precedence ≤ t.precedence ∧ (op ≠ .pow → op.precedence < t.precedence) ∧ 2 ≤ t.precedence := by
  unfold Tree.rightNeedsParen at hright
  split at hright
  · rename_i hpow
    subst hpow
    have hbound := of_decide_eq_false hright
    rw [Op.precedence] at hbound ⊢
    exact ⟨Nat.not_lt.mp hbound, fun h => absurd rfl h, by omega⟩
  · rw [Bool.or_eq_false_iff] at hright
    have hbound := of_decide_eq_false hright.2
    have hpositive : 1 ≤ op.precedence := by cases op <;> simp [Op.precedence]
    omega

/-- Between operands that need no parentheses an operator is read by the rules of its own precedence. -/
theorem level_operator {op : Op} (hop : op.isArithmetic = true) {l r : Tree} {ts us : List Token} {p q : Phrase}
    (hl : HasLevel l.precedence ts p) (hr : HasLevel r.precedence us q) (hleft : Tree.leftNeedsParen op l = false)
    (hright : Tree.rightNeedsParen op r = false) :
    HasLevel op.precedence (ts ++ ((Piece.operator op).tokens ++ us)) (.binary (operationOf op) p q) := by
  obtain ⟨hloperand, -, hlproduct, hlsum⟩ := hl
  obtain ⟨-, hrfactor, hrproduct, -⟩ := hr
  obtain ⟨hleft, hpower⟩ := le_of_leftNeedsParen hleft
  obtain ⟨hright, hstrict, htwo⟩ := le_of_rightNeedsParen hright
  cases op with
  | call f => simp [Op.isArithmetic] at hop
  | add => exact (hlsum.append (m := .plus) rfl (hrproduct htwo).term).level (by decide)
  | sub => exact (hlsum.append (m := .minus) rfl (hrproduct htwo).term).level (by decide)
  | mul => exact ((hlproduct hleft).append (m := .star) rfl (hrfactor (hstrict (by simp)))).level (by decide)
  | div => exact ((hlproduct hleft).append (m := .slash) rfl (hrfactor (hstrict (by simp)))).level (by decide)
  | pow =>
    have hfactor : 4 ≤ r.precedence := hright
    exact ((hloperand (hpower rfl)).power (hrfactor (by omega))).level (by decide)

theorem isImplicitProduct_of_followsNumber {t : Tree} (hfollows : t.followsNumber = true) (value : Rat) :
    Tree.isImplicitProduct (.const value) t = .ok true := by
  cases t with
  | symbol name => exact congrArg _ hfollows
  | _ => simp [Tree.followsNumber] at hfollows

theorem precedence_operator {op : Op} (l r : Tree) : (Tree.apply op [l, r]).precedence = op.precedence := by
  cases op <;> rfl

theorem chars_operator {op : Op} (hop : op.isArithmetic = true) : (operator op).chars = Tree.separator false op := by
  cases op with
  | call f => simp [Op.isArithmetic] at hop
  | _ => rfl

section Operator

variable {op : Op} {l r : Tree} {p q : Phrase} (hl : Writes ps p l)

include hl

/-- A power of a name begins with the name, and no other operation is written right behind a number. -/
theorem isImplicitProduct_operator {rs : List Piece} (hhead : ∀ w rest, ps = .name w :: rest → ∃ more, rs = .name w :: more)
    (value : Rat) : ∃ implicit, Tree.isImplicitProduct (.const value) (.apply op [l, r]) = .ok implicit ∧
      (implicit = true → ∃ w rest, rs = .name w :: rest ∧ Tree.fusesWithDigits w = false) := by
  by_cases hop : op = .pow
  · subst hop
    refine ⟨l.followsNumber, rfl, fun hfollows => ?_⟩
    obtain ⟨implicit, himplicit, hname⟩ := hl.name 0
    rw [isImplicitProduct_of_followsNumber hfollows] at himplicit
    obtain ⟨w, rest, hps, hfuses⟩ := hname (Except.ok.inj himplicit).symm
    obtain ⟨more, hrs⟩ := hhead w rest hps
    exact ⟨w, more, hrs, hfuses⟩
  · refine ⟨false, ?_, nofun⟩
    cases op <;> first | rfl | exact absurd rfl hop

variable (hr : Writes qs q r)

include hr

theorem Writes.operator (hop : op.isArithmetic = true) (hleft : Tree.leftNeedsParen op l = false)
    (hright : Tree.rightNeedsParen op r = false) (himplicit : op = .mul → Tree.isImplicitProduct l r = .ok false) :
    Writes (ps ++ .operator op :: qs) (.binary (operationOf op) p q) (.apply op [l, r]) where
  chars := by
    refine (Tree.chars_operator_eq_ok_iff hop).mpr ⟨false, ?_, _, hl.chars, _, hr.chars, ?_⟩
    · split
      · exact himplicit ‹_›
      · rfl
    · rw [← chars_operator hop, text_append, text, text, text, List.flatMap_cons]
  operand := hl.operand.append hr.operand hop rfl rfl
  closed := by
    have hoperator : closes 0 (.mark (markOf op) :: qs.flatMap spelled) = closes 0 (qs.flatMap spelled) :=
      closes_cons (by cases op <;> simp [markOf]) (by cases op <;> simp [markOf]) _
    have hclosed := @closes_append 0 0 _ hl.closed (.mark (markOf op) :: qs.flatMap spelled)
    rw [List.flatMap_append, List.flatMap_cons]
    exact hclosed.trans (hoperator.trans hr.closed)
  level := by
    rw [precedence_operator, List.flatMap_append, List.flatMap_cons]
    exact level_operator hop hl.level hr.level hleft hright
  number := nofun
  name := isImplicitProduct_operator hl fun w rest hps => ⟨rest ++ .operator op :: qs, by simp [hps]⟩

/-- A number times what a name begins is written without a sign, and read as with one. -/
theorem Writes.multiple (hleft : Tree.leftNeedsParen .mul l = false) (hright : Tree.rightNeedsParen .mul r = false)
    (himplicit : Tree.isImplicitProduct l r = .ok true) :
    ∃ rs, Writes rs (.binary .mul p q) (.apply .mul [l, r]) ∧
      ∀ vars, (∀ x ∈ rs, x.Known vars) → (∀ x ∈ ps, x.Known vars) ∧ ∀ x ∈ qs, x.Known vars := by
  obtain ⟨value, rfl⟩ : ∃ value, l = .const value := by
    cases l with
    | const value => exact ⟨value, rfl⟩
    | _ => simp [Tree.isImplicitProduct] at himplicit
  obtain ⟨front, n, rfl⟩ := hl.number value rfl
  obtain ⟨implicit, heq, hname⟩ := hr.name value
  obtain ⟨w, rest, rfl, hfuses⟩ := hname (Except.ok.inj (heq.symm.trans himplicit))
  refine ⟨front ++ .multiple n w :: rest, ⟨?_, hl.operand.fuse hr.operand hfuses, ?_, ?_, fun _ hconst => ?_, ?_⟩,
    fun vars hknown => ?_⟩
  · refine (Tree.chars_operator_eq_ok_iff rfl).mpr ⟨true, himplicit, _, hl.chars, _, hr.chars, ?_⟩
    simp [Tree.separator, text, Piece.chars, atom, signs]
  · have hclosed := @closes_append 0 0 _ hl.closed ((Piece.name w :: rest).flatMap spelled)
    have hspelled : (front ++ .multiple n w :: rest).flatMap spelled =
        (front ++ [Piece.number n]).flatMap spelled ++ (Piece.name w :: rest).flatMap spelled := by
      simp [spelled]
    rw [hspelled]
    exact hclosed.trans hr.closed
  · have htokens : (front ++ .multiple n w :: rest).flatMap tokens =
        (front ++ [Piece.number n]).flatMap tokens ++ ((Piece.operator .mul).tokens ++ (Piece.name w :: rest).flatMap tokens) := by
      simp [tokens, written, spelled, markOf]
    rw [htokens]
    exact level_operator rfl hl.level hr.level hleft hright
  · simp at hconst
  · exact fun _ => ⟨false, rfl, by simp⟩
  · have hknown' := List.forall_mem_append.mp hknown
    have hmultiple := List.forall_mem_cons.mp hknown'.2
    exact ⟨List.forall_mem_append.mpr ⟨hknown'.1, by simp [Known]⟩, List.forall_mem_cons.mpr ⟨hmultiple.1, hmultiple.2⟩⟩

theorem exists_writes_operator (hop : op.isArithmetic = true) (hleft : Tree.leftNeedsParen op l = false)
    (hright : Tree.rightNeedsParen op r = false) :
    ∃ rs, Writes rs (.binary (operationOf op) p q) (.apply op [l, r]) ∧
      ∀ vars, (∀ x ∈ rs, x.Known vars) → (∀ x ∈ ps, x.Known vars) ∧ ∀ x ∈ qs, x.Known vars := by
  have hexplicit (himplicit : op = .mul → Tree.isImplicitProduct l r = .ok false) :
      ∃ rs, Writes rs (.binary (operationOf op) p q) (.apply op [l, r]) ∧
        ∀ vars, (∀ x ∈ rs, x.Known vars) → (∀ x ∈ ps, x.Known vars) ∧ ∀ x ∈ qs, x.Known vars := by
    refine ⟨_, hl.operator hr hop hleft hright himplicit, fun vars hknown => ?_⟩
    have hknown' := List.forall_mem_append.mp hknown
    exact ⟨hknown'.1, (List.forall_mem_cons.mp hknown'.2).2⟩
  by_cases hmul : op = .mul
  · subst hmul
    have himplicit : ∃ implicit, Tree.isImplicitProduct l r = .ok implicit := by
      cases l with
      | const value => exact (hr.name value).imp fun _ h => h.1
      | _ => exact ⟨false, rfl⟩
    obtain ⟨implicit, himplicit⟩ := himplicit
    cases implicit with
    | true => exact hl.multiple hr hleft hright himplicit
    | false => exact hexplicit fun _ => himplicit
  · exact hexplicit fun h => absurd h hmul

end Operator

/-! ### Calls -/

/-- The pieces of the arguments of a call, with commas between them. -/
def joined : List (List Piece) → List Piece
  | [] => []
  | [ps] => ps
  | ps :: qs :: rest => ps ++ .comma :: joined (qs :: rest)

theorem text_joined (pss : List (List Piece)) : text (joined pss) = Tree.joinChars [',', ' '] (pss.map text) := by
  induction pss using joined.induct with
  | case1 | case2 => rfl
  | case3 ps qs rest ih =>
    rw [joined, text_append, text_cons, ih]
    simp [Tree.joinChars, atom, signs]

theorem tokens_joined (pss : List (List Piece)) :
    (joined pss).flatMap tokens = Phrase.argTokens (pss.map fun ps => ps.flatMap tokens) := by
  induction pss using joined.induct with
  | case1 | case2 => rfl
  | case3 ps qs rest ih =>
    rw [joined, List.flatMap_append, List.flatMap_cons, ih]
    rfl

theorem isOperandText_joined {pss : List (List Piece)} (hne : pss ≠ []) (hpss : ∀ ps ∈ pss, IsOperandText ps) :
    IsOperandText (joined pss) := by
  induction pss using joined.induct with
  | case1 => exact absurd rfl hne
  | case2 ps => exact hpss ps (List.mem_singleton_self ps)
  | case3 ps qs rest ih =>
    have hlater := ih (by simp) fun rs hrs => hpss rs (List.mem_cons_of_mem ps hrs)
    exact @IsOperandText.append _ _ (hpss ps List.mem_cons_self) hlater .comma trivial rfl rfl

theorem closes_joined {pss : List (List Piece)} (hpss : ∀ ps ∈ pss, closes 0 (ps.flatMap spelled) = true) :
    closes 0 ((joined pss).flatMap spelled) = true := by
  induction pss using joined.induct with
  | case1 => rfl
  | case2 ps => exact hpss ps (List.mem_singleton_self ps)
  | case3 ps qs rest ih =>
    have hlater := ih fun rs hrs => hpss rs (List.mem_cons_of_mem ps hrs)
    have hfirst := @closes_append 0 0 _ (hpss ps List.mem_cons_self) (.mark .comma :: (joined (qs :: rest)).flatMap spelled)
    rw [joined, List.flatMap_append, List.flatMap_cons]
    exact hfirst.trans hlater

theorem mem_joined {pss : List (List Piece)} {p : Piece} (hps : ps ∈ pss) (hp : p ∈ ps) : p ∈ joined pss := by
  induction pss using joined.induct with
  | case1 => simp at hps
  | case2 qs => rwa [joined, ← List.mem_singleton.mp hps]
  | case3 qs rs rest ih =>
    rcases List.mem_cons.mp hps with rfl | hps
    · simp [joined, hp]
    · simp [joined, ih hps]

theorem charsAll_eq_ok {args : List Tree} {pieces : Tree → List Piece} (hargs : ∀ a ∈ args, a.chars = .ok (text (pieces a))) :
    Tree.charsAll args = .ok (args.map fun a => text (pieces a)) := by
  induction args with
  | nil => rfl
  | cons a args ih =>
    rw [Tree.charsAll, hargs a List.mem_cons_self, ih fun b hb => hargs b (List.mem_cons_of_mem a hb)]
    rfl

section Call

variable {f : String} {args : List Tree} {pieces : Tree → List Piece} {phrase : Tree → Phrase}

theorem writes_call (hf : f ∈ Text.functionNames) (hne : args ≠ []) (hargs : ∀ a ∈ args, Writes (pieces a) (phrase a) a) :
    Writes (.opening f :: (joined (args.map pieces) ++ [.closeParen])) (.call f (args.map phrase))
      (.apply (.call f) args) where
  chars := by
    rw [Tree.chars, charsAll_eq_ok fun a ha => (hargs a ha).chars]
    have hclose : text [.closeParen] = [')'] := rfl
    simp [text_cons, text_append, text_joined, atom, signs, hclose, Function.comp_def]
  operand := by
    have hjoined : IsOperandText (joined (args.map pieces)) :=
      isOperandText_joined (by simpa using hne) (List.forall_mem_map.mpr fun a ha => (hargs a ha).operand)
    exact (@IsOperandText.concat _ hjoined .closeParen trivial rfl rfl).cons hf rfl rfl
  closed := by
    have hjoined : closes 0 ((joined (args.map pieces)).flatMap spelled) = true :=
      closes_joined (List.forall_mem_map.mpr fun a ha => (hargs a ha).closed)
    have hclosed := @closes_append 1 0 _ hjoined [.mark .closeParen]
    simpa [spelled, closes] using hclosed
  level := by
    have hderives := @Phrase.derives_args f (args.map fun a => ((pieces a).flatMap tokens, phrase a)) (by simpa using hne)
      (List.forall_mem_map.mpr fun a ha => (hargs a ha).level.2.2.2) []
    have hoperand : IsOperand ((Piece.opening f :: (joined (args.map pieces) ++ [.closeParen])).flatMap tokens)
        (.call f (args.map phrase)) := by
      intro rest hends
      have hcall := Phrase.Derives.call (hderives rest) hends
      simpa [tokens_joined, tokens, written, spelled, Function.comp_def] using hcall
    exact hoperand.level _
  number := nofun
  name := fun _ => ⟨false, rfl, nofun⟩

theorem means_call (hf : f ∈ Text.functionNames) (hne : args ≠ []) (hargs : ∀ a ∈ args, Means (pieces a) (phrase a) a) :
    Means (.opening f :: (joined (args.map pieces) ++ [.closeParen])) (.call f (args.map phrase)) (Tree.call f args) := by
  intro text vars hknown
  have htrees : treesOf text vars (args.map phrase) = .ok args := by
    rw [treesOf_eq_ok_iff, List.forall₂_map_left_iff, List.forall₂_same]
    intro a ha
    refine hargs a ha text vars fun p hp => hknown p ?_
    have hjoined : p ∈ joined (args.map pieces) := mem_joined (List.mem_map_of_mem ha) hp
    simp [hjoined]
  exact treeOf_call_eq_ok_iff.mpr (.inr ⟨hf, by simpa using hne, args, htrees, rfl⟩)

end Call

/-! ### Composed trees -/

theorem exists_writes {t : Tree} (h : t.Composed) : ∃ ps q, Writes ps q t ∧ Means ps q t := by
  refine h.shapes (motive := fun t => ∃ ps q, Writes ps q t ∧ Means ps q t) ?integer ?letter ?pi ?negate ?binary ?call
  case integer => exact fun n hn => exists_writes_integer hn
  case letter => exact fun c hc => ⟨_, _, writes_name (.inl ⟨c, hc, rfl⟩), means_name _⟩
  case pi => exact ⟨_, _, writes_name (.inr rfl), means_name _⟩
  case negate =>
    rintro t ht hconst ⟨ps, q, hwrites, hmeans⟩
    obtain ⟨qs, hwrites, hknown⟩ := hwrites.parenIf (t.precedence ≤ Tree.signPrecedence)
    have hnegate : t.negate = .apply .sub [Tree.parenIf (t.precedence ≤ Tree.signPrecedence) t] := by
      unfold Tree.negate
      rw [ht.stripParens]
      split
      · exact absurd rfl (hconst _)
      · rfl
    refine ⟨.minus :: qs, q.negative, ?_, fun text vars hvars => ?_⟩
    · rw [hnegate]
      refine hwrites.negative ?_
      by_cases hneeded : t.precedence ≤ Tree.signPrecedence
      · rw [decide_eq_true hneeded]
        exact (by decide : Tree.signPrecedence ≤ Tree.atomPrecedence)
      · rw [decide_eq_false hneeded]
        exact Nat.le_of_lt (Nat.not_le.mp hneeded)
    · exact treeOf_negative_eq_ok_iff.mpr
        ⟨t, hmeans text vars (hknown vars fun p hp => hvars p (List.mem_cons_of_mem _ hp)), rfl⟩
  case binary =>
    rintro op l r hop hl hr ⟨ps, p, hlwrites, hlmeans⟩ ⟨qs, q, hrwrites, hrmeans⟩
    obtain ⟨ps', hlwrites, hlknown⟩ := hlwrites.parenIf (Tree.leftNeedsParen op l)
    obtain ⟨qs', hrwrites, hrknown⟩ := hrwrites.parenIf (Tree.rightNeedsParen op r)
    obtain ⟨rs, hwrites, hknown⟩ := exists_writes_operator hlwrites hrwrites hop (leftNeedsParen_parenIf op l)
      (rightNeedsParen_parenIf hop r)
    refine ⟨rs, .binary (operationOf op) p q, ?_, fun text vars hvars => ?_⟩
    · rwa [Tree.binary, hl.stripParens, hr.stripParens]
    · obtain ⟨hlvars, hrvars⟩ := hknown vars hvars
      exact treeOf_binary_eq_ok_iff.mpr ⟨op, op?_operationOf hop, l, hlmeans text vars (hlknown vars hlvars), r,
        hrmeans text vars (hrknown vars hrvars), rfl⟩
  case call =>
    intro f args hf hne hargs
    have : Nonempty Phrase := ⟨.other⟩
    choose! pieces phrase hwrites hmeans using fun a (ha : a ∈ args) => (hargs a ha).2
    have hplain : args.map Tree.stripParens = args := by
      rw [List.map_congr_left fun a ha => (hargs a ha).1.stripParens, List.map_id']
    refine ⟨_, _, ?_, means_call hf hne hmeans⟩
    rw [Tree.call, hplain]
    exact writes_call hf hne hwrites

end Piece

/-- A composed tree is written, and read back from what is written. -/
theorem ofText_of_composed {t : Tree} (h : t.Composed) : ∃ s, t.text = .ok s ∧ Tree.ofText s = .ok t := by
  obtain ⟨ps, q, hwrites, hmeans⟩ := Piece.exists_writes h
  exact Piece.ofText_of_writes hwrites hmeans

end AlgebraTutor.Reader
