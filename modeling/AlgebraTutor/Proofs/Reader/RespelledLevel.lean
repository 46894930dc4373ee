import AlgebraTutor.Proofs.Reader.Level
import AlgebraTutor.Proofs.Reader.Respelling

/-!
# Letters spelled anew are applied alike

A letter in a call of its own, spelled as a word, is still one operand of its level. So implicit applications are written at
the same places, as long as no parenthesis is owed when a group of its own begins. There a parenthesis would be closed right
after it was opened, and no phrase comes of that.
-/

namespace AlgebraTutor.Reader

variable {vars : List Char}

/-! ### What may stand side by side -/

/-- After an opening parenthesis neither is it closed nor does a product or a power go on. -/
def OpensOperand (t u : Token) : Prop :=
  t = .mark .openParen → u ≠ .mark .closeParen ∧ (Unit.token u).continues = false

theorem head?_fuseMarks_star (ts : List Token) : (fuseMarks (.mark .star :: ts)).head? = some (.mark .star) ∨
    (fuseMarks (.mark .star :: ts)).head? = some (.mark .doubleStar) := by
  generalize hwhole : Token.mark .star :: ts = whole
  fun_cases fuseMarks whole with
  | case1 => exact .inr rfl
  | case2 | case3 | case5 => simp at hwhole
  | case4 t =>
    obtain rfl := (List.cons.inj hwhole).1
    exact .inl rfl

theorem opensOperand_of_begins {u : Token} {ts : List Token}
    (h : ∀ v ∈ (grammarTokens (u :: ts)).head?, Phrase.beginsPhrase v = true) :
    u ≠ .mark .closeParen ∧ (Unit.token u).continues = false := by
  cases u with
  | mark m =>
    cases m with
    | closeParen => exact absurd (h _ rfl) (by simp [Phrase.beginsPhrase])
    | caret | doubleStar => exact absurd (h (.mark .doubleStar) rfl) (by simp [Phrase.beginsPhrase])
    | star =>
      rcases head?_fuseMarks_star (ts.flatMap splitMark) with hhead | hhead
      all_goals exact absurd (h _ hhead) (by simp [Phrase.beginsPhrase])
    | _ => exact ⟨by simp, rfl⟩
  | _ => exact ⟨by simp, rfl⟩

/-- Where the grammar finds that every parenthesis opens a phrase, every parenthesis opens an operand. -/
theorem isChain_opensOperand {ts : List Token} (h : (grammarTokens ts).IsChain Phrase.Opens) : ts.IsChain OpensOperand := by
  rw [List.isChain_iff_forall_rel_of_append_cons_cons]
  rintro t u front rest rfl rfl
  rw [grammarTokens_append rfl rfl] at h
  exact opensOperand_of_begins fun v hv => h.right_of_append.rel_head? hv rfl

/-- The token is an argument that is written as it is. -/
def isArgument : Token → Bool
  | .literal _ | .quoted _ => true
  | _ => false

/-- An argument that is written as it is stands behind its parenthesis. -/
def Encloses (t u : Token) : Prop :=
  isArgument u = true → t = .mark .openParen

/-- The tokens begin with no bare argument, and every argument in them stands behind its parenthesis. -/
structure IsEnclosed (ts : List Token) : Prop where
  head : ∀ t ∈ ts.head?, isArgument t = false
  chain : ts.IsChain Encloses

namespace IsEnclosed

theorem nil : IsEnclosed [] :=
  ⟨by simp, .nil⟩

theorem append {ts us : List Token} (hts : IsEnclosed ts) (hus : IsEnclosed us) : IsEnclosed (ts ++ us) where
  head t ht := by
    cases ts with
    | nil => exact hus.head t ht
    | cons u ts => exact hts.head t ht
  chain := List.isChain_append.mpr ⟨hts.chain, hus.chain, fun _ _ u hu harg => by simp [hus.head u hu] at harg⟩

theorem singleton {t : Token} (ht : isArgument t = false) : IsEnclosed [t] :=
  ⟨by simpa using ht, List.isChain_singleton t⟩

theorem callOn (name : String) (t : Token) : IsEnclosed (callOn name t) where
  head := by simp [Reader.callOn, isArgument]
  chain := by simp [Reader.callOn, Encloses, isArgument]

theorem spellFused (n : Nat) (cs : List Char) : IsEnclosed (spellFused vars n cs) := by
  induction n generalizing cs with
  | zero => exact nil
  | succ n ih =>
    cases cs with
    | nil => exact nil
    | cons c cs =>
      rw [Reader.spellFused]
      split
      · exact (callOn _ _).append (ih _)
      · refine append ?_ (ih _)
        split
        · exact singleton rfl
        · exact callOn _ _

theorem spell (afterDot : Bool) (ls : List Lexeme) : IsEnclosed (spell vars afterDot ls) := by
  induction ls generalizing afterDot with
  | nil => exact nil
  | cons l ls ih =>
    cases l with
    | mark m => exact (singleton rfl).append (ih _)
    | number l isImaginary =>
      refine append ((callOn _ _).append ?_) (ih _)
      cases isImaginary
      · exact nil
      · exact (@singleton (.mark .star) rfl).append (@singleton (.word "I") rfl)
    | word name =>
      refine append ?_ (ih _)
      split
      · exact singleton rfl
      · exact spellFused _ _

end IsEnclosed

/-- Behind an operand stands a mark that begins none. -/
def EndsThere (t u : Token) : Prop :=
  endsOperand false t = true → (Unit.token u).isStop = true ∧ u ≠ .mark .openParen

/-- Once products are written, a mark stands between operands. -/
theorem isChain_endsThere {ts : List Token} (hts : ts.IsChain Encloses) (hdot : Token.mark .dot ∉ ts) :
    (insertProducts false ts).IsChain EndsThere := by
  induction ts with
  | nil => exact .nil
  | cons t ts ih =>
    rw [List.mem_cons, not_or] at hdot
    have hafter : (t == .mark .dot) = false := by simpa using Ne.symm hdot.1
    have hlater := ih hts.tail hdot.2
    rw [insertProducts_cons, hafter, productSign]
    split
    · refine List.isChain_cons_cons.mpr ⟨fun _ => ⟨rfl, by simp⟩, List.isChain_cons.mpr ⟨fun _ _ hends => ?_, hlater⟩⟩
      simp [endsOperand] at hends
    · rename_i hapart
      rw [List.nil_append]
      refine List.isChain_cons.mpr ⟨fun u hu hends => ?_, hlater⟩
      rw [head?_insertProducts] at hu
      have hbegins : beginsOperand u = false := by
        rw [Option.mem_def.mp hu, hends] at hapart
        simpa using hapart
      have hbare : isArgument u = false := by
        by_contra hargument
        rw [hts.rel_head? hu (by simpa using hargument)] at hends
        simp [endsOperand] at hends
      cases u with
      | mark m => exact ⟨rfl, fun heq => by simp [heq, beginsOperand] at hbegins⟩
      | finish => exact ⟨rfl, by simp⟩
      | word w => simp [beginsOperand] at hbegins
      | literal | quoted => simp [isArgument] at hbare

/-! ### Units -/

/-- The units of two levels, one of which is the other with letters spelled anew. Where a group of its own stands, or a
function with its parenthesis, what is written within is spelled anew if every parenthesis in it opens an operand. -/
inductive UnitsRespelled (vars : List Char) : List Unit → List Unit → Prop
  | nil : UnitsRespelled vars [] []
  | token {vs ws : List Unit} (t : Token) (hrest : UnitsRespelled vars vs ws) :
    UnitsRespelled vars (.token t :: vs) (.token t :: ws)
  | applied {ts us : List Token} {vs ws : List Unit} (h : ts.IsChain OpensOperand → Respelled vars ts us)
    (hrest : UnitsRespelled vars vs ws) : UnitsRespelled vars (.applied ts :: vs) (.applied us :: ws)
  | letter {c : Char} {vs ws : List Unit} (hc : c ∈ vars) (hstop : ∀ u ∈ ws.head?, u.isStop = true)
    (hrest : UnitsRespelled vars vs ws) :
    UnitsRespelled vars (.applied (callOn "letter" (.quoted c.toString)) :: vs) (.token (.word c.toString) :: ws)
  | group {content content' : List Nested} {vs ws : List Unit}
    (h : (applyFunctions content).IsChain OpensOperand → Respelled vars (applyFunctions content) (applyFunctions content'))
    (hcontent : ∀ u ∈ units none content, u.IsSettled) (hcontent' : ∀ u ∈ units none content', u.IsSettled)
    (hrest : UnitsRespelled vars vs ws) :
    UnitsRespelled vars ((groupTokens content).map .token ++ vs) ((groupTokens content').map .token ++ ws)

/-- What comes next is the same as far as debts are concerned. -/
def Unit.SameMarks (u v : Unit) : Prop :=
  u.isStop = v.isStop ∧ ∀ m, u.isMark m = v.isMark m

theorem UnitsRespelled.head {vs ws : List Unit} (h : UnitsRespelled vars vs ws) :
    (vs = [] ∧ ws = []) ∨ ∃ v vs' w ws', vs = v :: vs' ∧ ws = w :: ws' ∧ v.SameMarks w := by
  cases h with
  | nil => exact .inl ⟨rfl, rfl⟩
  | token t => exact .inr ⟨_, _, _, _, rfl, rfl, rfl, fun _ => rfl⟩
  | applied => exact .inr ⟨_, _, _, _, rfl, rfl, rfl, fun _ => rfl⟩
  | letter => exact .inr ⟨_, _, _, _, rfl, rfl, rfl, fun _ => rfl⟩
  | group => exact .inr ⟨_, _, _, _, rfl, rfl, rfl, fun _ => rfl⟩

theorem settle_congr {debt : Debt} (hpower : debt.inPower = false) (u : Unit) {next next' : Unit} (h : next.SameMarks next')
    (hnext : next.isMark .doubleStar = false) : settle debt u next = settle debt u next' := by
  have hcontinues : next.continues = next'.continues := by simp only [Unit.continues, h.2]
  rw [settle_of_no_power hpower hnext, settle_of_no_power hpower ((h.2 _).symm.trans hnext), h.1, hcontinues]

/-- A parenthesis or a token to be passed over is owed only where a product or a power goes on, and no power of a
function. -/
structure Debt.IsSound (debt : Debt) (us : List Unit) : Prop where
  inPower : debt.inPower = false
  passNext : debt.passNext = true → debt.parens ≠ 0 ∧ ∀ u ∈ us.head?, u.continues = true

theorem Debt.IsSound.settle {debt : Debt} {u next : Unit} {us vs : List Unit} (h : debt.IsSound (u :: us))
    (hnext : next.isMark .doubleStar = false) : (settle debt u next).2.IsSound (next :: vs) := by
  refine ⟨inPower_settle h.inPower hnext, fun hpass => ?_⟩
  have hname : u.isName = true → debt.passNext = false := by
    intro hname
    by_contra hpass
    have hcontinues := (h.passNext (by simpa using hpass)).2 u rfl
    cases u with
    | token t => cases t <;> simp_all [Unit.continues, Unit.isMark, Unit.isName]
    | applied => simp [Unit.isName] at hname
  rw [settle_of_no_power h.inPower hnext] at hpass ⊢
  split_ifs at hpass ⊢ with hfirst hfunction hparens hcontinues hpassed
  · exact absurd hpass (by simp [hname (by simp_all)])
  · exact absurd hpass (by simp [hname (by simp_all)])
  · exact absurd hparens (h.passNext hpass).1
  · exact ⟨hparens, by simpa using hcontinues⟩
  · exact absurd hpass hpassed

/-- A letter is settled as the call that it is spelled as, where a mark follows. -/
theorem settle_letter {debt : Debt} (hpower : debt.inPower = false) {next : Unit} (hstop : next.isStop = true)
    (hnext : next.isMark .doubleStar = false) (ts : List Token) (w : String) :
    settle debt (.applied ts) next = settle debt (.token (.word w)) next := by
  have hname : Unit.isName (.applied ts) = false := rfl
  rw [settle_of_no_power hpower hnext, settle_of_no_power hpower hnext, hstop, hname, Bool.not_true, Bool.and_false, Bool.and_false,
    if_neg Bool.false_ne_true, if_neg Bool.false_ne_true]

/-- What is settled goes before what follows, as it is. -/
theorem settleAll_idle_append {us vs : List Unit} (hus : us.IsChain Idle) (hlast : ∀ u ∈ us.getLast?, u.isFunction = false)
    (passNext : Bool) : settleAll ⟨0, passNext, false⟩ (us ++ vs) = us.flatMap Unit.tokens ++ settleAll ⟨0, passNext, false⟩ vs := by
  induction us with
  | nil => rfl
  | cons u us ih =>
    cases us with
    | nil =>
      cases vs with
      | nil => simp [settleAll]
      | cons next vs =>
        have hidle : Idle u next := fun hfunction => absurd hfunction (by simp [hlast u rfl])
        rw [List.singleton_append, settleAll_cons_cons, settle_idle hidle]
        simp
    | cons next us =>
      rw [List.isChain_cons_cons] at hus
      have hlater := ih hus.2 (by simpa using hlast)
      rw [List.cons_append] at hlater
      rw [List.cons_append, List.cons_append, settleAll_cons_cons, settle_idle hus.1, hlater]
      simp

/-- A group of its own is written as it is where nothing is owed. -/
theorem settleAll_group {content : List Nested} (hcontent : ∀ u ∈ units none content, u.IsSettled) (vs : List Unit) :
    settleAll .none ((groupTokens content).map .token ++ vs) = groupTokens content ++ settleAll .none vs := by
  have hchain := (settled_groupTokens hcontent .nil).2
  rw [List.append_nil] at hchain
  rw [settleAll_idle_append ((List.isChain_map _).mpr hchain)]
  · simp [List.flatMap_map, Unit.tokens]
  · intro u hu
    rw [groupTokens, ← List.cons_append, List.map_append, List.map_singleton, List.getLast?_concat] at hu
    obtain rfl := Option.some.inj hu
    rfl

/-- Where a parenthesis is owed, a group of its own opens no operand. -/
theorem parens_of_opensOperand {debt : Debt} {content : List Nested} {vs : List Unit}
    (hdebt : debt.IsSound ((groupTokens content).map .token ++ vs)) (hstar : Token.mark .doubleStar ∉ groupTokens content)
    (hopens : (settleAll debt ((groupTokens content).map .token ++ vs)).IsChain OpensOperand) : debt = .none := by
  have hpass : debt.passNext = false := by
    by_contra hpass
    have hcontinues := (hdebt.passNext (by simpa using hpass)).2 (.token (.mark .openParen)) rfl
    simp [Unit.continues, Unit.isMark] at hcontinues
  have hparens : debt.parens = 0 := by
    by_contra hparens
    obtain ⟨t, more, hmore⟩ : ∃ t more, applyFunctions content ++ [.mark .closeParen] = t :: more :=
      List.exists_cons_of_ne_nil (by simp)
    rw [groupTokens, hmore] at hopens hstar
    have ht : Unit.isMark .doubleStar (.token t) = false := by
      simp only [List.mem_cons, not_or] at hstar
      simpa [Unit.isMark] using Ne.symm hstar.2.1
    rw [List.map_cons, List.map_cons, List.cons_append, List.cons_append, settleAll_cons_cons] at hopens
    have hname : Unit.isName (.token (.mark .openParen)) = false := rfl
    rw [settle_of_no_power hdebt.inPower ht, hname, Bool.false_and, if_neg Bool.false_ne_true, if_neg hparens, hpass,
      if_neg Bool.false_ne_true] at hopens
    by_cases hcontinues : Unit.continues (.token t) = true
    · -- a product goes on right behind the parenthesis
      rw [if_pos hcontinues] at hopens
      obtain ⟨later, hlater⟩ := exists_settleAll_cons ⟨debt.parens, true, debt.inPower⟩ (.token t) (more.map .token ++ vs)
      rw [List.nil_append, hlater] at hopens
      have hoperand := (List.isChain_cons_cons.mp hopens).1 rfl
      simp [hcontinues] at hoperand
    · -- the parenthesis that is owed is closed there
      rw [if_neg hcontinues] at hopens
      exact ((List.isChain_cons_cons.mp hopens).1 rfl).1 rfl
  obtain ⟨parens, passNext, inPower⟩ := debt
  obtain rfl : parens = 0 := hparens
  obtain rfl : passNext = false := hpass
  obtain rfl : inPower = false := hdebt.inPower
  rfl

/-- One unit, and then what follows. -/
theorem Respelled.settleAll_cons {v w : Unit} {vs ws : List Unit} {debt : Debt} (hrest : UnitsRespelled vars vs ws)
    (hdebt : debt.IsSound (v :: vs)) (hvs : ∀ u ∈ vs, u.IsSettled) (hopens : (settleAll debt (v :: vs)).IsChain OpensOperand)
    (htokens : v.tokens.IsChain OpensOperand → Respelled vars v.tokens w.tokens)
    (hsettle : ∀ next ∈ ws.head?, next.isMark .doubleStar = false → settle debt v next = settle debt w next)
    (hlater : ∀ {debt : Debt}, debt.IsSound vs → (settleAll debt vs).IsChain OpensOperand →
      Respelled vars (settleAll debt vs) (settleAll debt ws)) :
    Respelled vars (settleAll debt (v :: vs)) (settleAll debt (w :: ws)) := by
  rcases hrest.head with ⟨rfl, rfl⟩ | ⟨v', vs', w', ws', rfl, rfl, hsame⟩
  · exact (htokens hopens.left_of_append).append (.refl _)
  · have hv' := (hvs v' List.mem_cons_self).isMark
    rw [settleAll_cons_cons] at hopens
    rw [settleAll_cons_cons, settleAll_cons_cons, ← hsettle w' rfl ((hsame.2 _).symm.trans hv'),
      ← settle_congr hdebt.inPower v hsame hv']
    exact (htokens hopens.left_of_append).append
      ((Respelled.refl _).append (hlater (hdebt.settle hv') hopens.right_of_append.right_of_append))

/-- What is written of units with letters spelled anew is the same with letters spelled anew. -/
theorem UnitsRespelled.settleAll {vs ws : List Unit} (h : UnitsRespelled vars vs ws) {debt : Debt} (hdebt : debt.IsSound vs)
    (hvs : ∀ v ∈ vs, v.IsSettled) (hopens : (settleAll debt vs).IsChain OpensOperand) :
    Respelled vars (settleAll debt vs) (settleAll debt ws) := by
  induction h generalizing debt with
  | nil => exact .nil
  | token t hrest ih =>
    have hvs := (List.forall_mem_cons.mp hvs).2
    exact .settleAll_cons hrest hdebt hvs hopens (fun _ => .refl _) (fun _ _ _ => rfl) fun hdebt => ih hdebt hvs
  | applied hinner hrest ih =>
    have hvs := (List.forall_mem_cons.mp hvs).2
    exact .settleAll_cons hrest hdebt hvs hopens hinner (fun _ _ _ => rfl) fun hdebt => ih hdebt hvs
  | letter hc hstop hrest ih =>
    have hvs := (List.forall_mem_cons.mp hvs).2
    exact .settleAll_cons hrest hdebt hvs hopens (fun _ => .letter hc .nil)
      (fun next hnext hstar => settle_letter hdebt.inPower (hstop next hnext) hstar _ _) fun hdebt => ih hdebt hvs
  | @group content content' vs ws hinner hcontent hcontent' hrest ih =>
    obtain ⟨hstar, -⟩ := settled_groupTokens hcontent .nil
    obtain rfl := parens_of_opensOperand hdebt hstar hopens
    rw [settleAll_group hcontent] at hopens ⊢
    rw [settleAll_group hcontent']
    have hgroup := hinner hopens.left_of_append.tail.left_of_append
    refine (Respelled.keep _ (hgroup.append (.refl _))).append ?_
    exact ih ⟨rfl, nofun⟩ (List.forall_mem_append.mp hvs).2 hopens.right_of_append

/-! ### Levels -/

/-- A level, and the same with letters spelled anew. -/
inductive NestedRespelled (vars : List Char) : List Nested → List Nested → Prop
  | nil : NestedRespelled vars [] []
  | token {ns ms : List Nested} (t : Token) (hrest : NestedRespelled vars ns ms) :
    NestedRespelled vars (.token t :: ns) (.token t :: ms)
  | group {content content' ns ms : List Nested} (hcontent : NestedRespelled vars content content')
    (hrest : NestedRespelled vars ns ms) : NestedRespelled vars (.group content :: ns) (.group content' :: ms)
  | letter {ns ms : List Nested} {c : Char} (hc : c ∈ vars) (hrest : NestedRespelled vars ns ms) :
    NestedRespelled vars (.token (.word "letter") :: .group [.token (.quoted c.toString)] :: ns)
      (.token (.word c.toString) :: ms)

theorem NestedRespelled.append {ns ms ns' ms' : List Nested} (h : NestedRespelled vars ns ms)
    (h' : NestedRespelled vars ns' ms') : NestedRespelled vars (ns ++ ns') (ms ++ ms') := by
  induction h with
  | nil => exact h'
  | token t _ ih => exact .token t ih
  | group hcontent _ _ ih => exact .group hcontent ih
  | letter hc _ ih => exact .letter hc ih

/-- Letters spelled anew nest where they nested before. -/
theorem Respelled.ofTokens? {ts us : List Token} (h : Respelled vars ts us) {outer outer' : List (List Nested)}
    {current current' level : List Nested}
    (houter : List.Forall₂ (fun ns ms => NestedRespelled vars ns.reverse ms.reverse) outer outer')
    (hcurrent : NestedRespelled vars current.reverse current'.reverse)
    (hlevel : Nested.ofTokens? outer current ts = some level) :
    ∃ level', Nested.ofTokens? outer' current' us = some level' ∧ NestedRespelled vars level level' := by
  induction h generalizing outer outer' current current' with
  | nil =>
    cases houter with
    | nil =>
      obtain rfl := Option.some.inj hlevel
      exact ⟨_, rfl, hcurrent⟩
    | cons => simp [Nested.ofTokens?] at hlevel
  | @keep ts us t hrest ih =>
    by_cases hopen : t = .mark .openParen
    · subst hopen
      exact ih (.cons hcurrent houter) .nil hlevel
    · by_cases hclose : t = .mark .closeParen
      · subst hclose
        cases houter with
        | nil => simp [Nested.ofTokens?] at hlevel
        | cons hfirst houter =>
          refine ih houter ?_ hlevel
          rw [List.reverse_cons, List.reverse_cons]
          exact hfirst.append (.group hcurrent .nil)
      · rw [Nested.ofTokens?] at hlevel ⊢
        · refine ih houter ?_ hlevel
          rw [List.reverse_cons, List.reverse_cons]
          exact hcurrent.append (.token t .nil)
        all_goals simpa using by assumption
  | @letter ts us c hc hrest ih =>
    have hnest : Nested.ofTokens? outer current (callOn "letter" (.quoted c.toString) ++ ts) =
        Nested.ofTokens? outer (.group [.token (.quoted c.toString)] :: .token (.word "letter") :: current) ts := by
      simp [callOn, Nested.ofTokens?]
    rw [hnest] at hlevel
    rw [Nested.ofTokens? ]
    · refine ih houter ?_ hlevel
      rw [List.reverse_cons, List.reverse_cons, List.reverse_cons, List.append_assoc]
      exact hcurrent.append (.letter hc .nil)
    all_goals simp

theorem UnitsRespelled.tokens {vs ws : List Unit} (ts : List Token) (h : UnitsRespelled vars vs ws) :
    UnitsRespelled vars (ts.map .token ++ vs) (ts.map .token ++ ws) := by
  induction ts with
  | nil => exact h
  | cons t ts ih => exact .token t ih

/-- Behind an operand, a level goes on with a mark. -/
theorem isStop_head_units {t : Token} (ht : endsOperand false t = true) {ms : List Nested}
    (hends : (t :: Nested.flatAll ms).IsChain EndsThere) : ∀ u ∈ (units none ms).head?, u.isStop = true := by
  cases ms with
  | nil => simp [units]
  | cons n ms =>
    cases n with
    | group content => exact absurd rfl (hends.rel_head? rfl ht).2
    | token v =>
      obtain ⟨hstop, -⟩ := hends.rel_head? (y := v) rfl ht
      have hfunction : Unit.isFunction (.token v) = false := by
        cases v <;> simp_all [Unit.isStop, Unit.isFunction]
      rw [units, unitsOf, if_neg (by simp [hfunction])]
      intro u hu
      obtain rfl := Option.some.inj hu
      exact hstop

/-- The units of a level with letters spelled anew. -/
theorem NestedRespelled.units {ns ms : List Nested} (h : NestedRespelled vars ns ms)
    (hends : (Nested.flatAll ms).IsChain EndsThere) (hns : Token.mark .doubleStar ∉ Nested.flatAll ns)
    (hms : Token.mark .doubleStar ∉ Nested.flatAll ms) (function : Option Token) :
    UnitsRespelled vars (units function ns) (units function ms) := by
  induction h generalizing function with
  | nil => simpa [Reader.units] using UnitsRespelled.nil.tokens function.toList
  | @token ns ms t hrest ih =>
    rw [Nested.flatAll, List.mem_append, not_or] at hns hms
    have hlater := ih hends.right_of_append hns.2 hms.2
    rw [Reader.units, Reader.units, unitsOf]
    split
    · exact (hlater (some t)).tokens function.toList
    · rw [List.append_assoc, List.append_assoc]
      exact (UnitsRespelled.token t (hlater none)).tokens function.toList
  | @group content content' ns ms hcontent hrest ihcontent ih =>
    obtain ⟨hcontentStar, hnsStar⟩ := Nested.no_power_group hns
    obtain ⟨hcontentStar', hmsStar⟩ := Nested.no_power_group hms
    have hunits := ihcontent hends.left_of_append.left_of_append.tail hcontentStar hcontentStar' none
    have hsettled := @settled_units none content nofun hcontentStar
    have hlater := ih hends.right_of_append hnsStar hmsStar none
    have hinner (hopens : (applyFunctions content).IsChain OpensOperand) :
        Respelled vars (applyFunctions content) (applyFunctions content') :=
      hunits.settleAll ⟨rfl, nofun⟩ hsettled hopens
    cases function with
    | none =>
      rw [units_group, units_group]
      exact .group hinner hsettled (@settled_units none content' nofun hcontentStar') hlater
    | some f =>
      rw [units_applied_group, units_applied_group]
      refine .applied (fun hopens => .keep f (.keep _ ((hinner ?_).append (.refl _)))) hlater
      exact hopens.tail.tail.left_of_append
  | @letter ns ms c hc hrest ih =>
    rw [Nested.flatAll, Nested.flatAll, List.mem_append, List.mem_append, not_or, not_or] at hns
    rw [Nested.flatAll, List.mem_append, not_or] at hms
    have hletter : Unit.isFunction (.token (.word c.toString)) = false := isCallable_letter c
    have hcall : groupTokens [.token (.quoted c.toString)] =
        [.mark .openParen, .quoted c.toString, .mark .closeParen] := rfl
    have hoperand : endsOperand false (.word c.toString) = true := by
      rw [endsOperand, isCallable_letter]
      rfl
    rw [Reader.units, unitsOf, if_pos (by decide), units_applied_group, hcall, Reader.units, unitsOf,
      if_neg (hletter ▸ Bool.false_ne_true), List.append_assoc]
    refine UnitsRespelled.tokens function.toList (.letter hc (isStop_head_units hoperand hends) ?_)
    exact ih hends.right_of_append hns.2.2 hms.2 none

theorem Respelled.mem {ts us : List Token} (h : Respelled vars ts us) {t : Token} (ht : t ∈ us) :
    t ∈ ts ∨ ∃ c : Char, t = .word c.toString := by
  induction h with
  | nil => simp at ht
  | keep u _ ih =>
    rcases List.mem_cons.mp ht with rfl | ht
    · exact .inl List.mem_cons_self
    · exact (ih ht).imp_left (List.mem_cons_of_mem u)
  | letter _ _ ih =>
    rcases List.mem_cons.mp ht with rfl | ht
    · exact .inr ⟨_, rfl⟩
    · exact (ih ht).imp_left (List.mem_append_right _)

/-- Where no power is near, implicit applications are written alike around letters spelled anew, if what comes of it can be
read. -/
theorem Respelled.applications? {ts us ts' : List Token} (h : Respelled vars ts us) (hends : us.IsChain EndsThere)
    (hpower : Token.mark .doubleStar ∉ ts) (hfinish : Token.finish ∉ ts) (happly : applications? ts = some ts')
    (hopens : ts'.IsChain OpensOperand) : ∃ us', Reader.applications? us = some us' ∧ Respelled vars ts' us' := by
  have hpower' : Token.mark .doubleStar ∉ us := fun hmem => (h.mem hmem).elim hpower (by simp)
  have hfinish' : Token.finish ∉ us := fun hmem => (h.mem hmem).elim hfinish (by simp)
  rw [applications?_of_no_power hpower hfinish] at happly
  obtain ⟨level, hlevel, rfl⟩ := Option.map_eq_some_iff.mp happly
  obtain ⟨level', hlevel', hnested⟩ := @Respelled.ofTokens? vars ts us h [] [] [] [] level .nil .nil hlevel
  obtain rfl := Nested.flatAll_eq_of_ofTokens? hlevel
  obtain rfl := Nested.flatAll_eq_of_ofTokens? hlevel'
  refine ⟨applyFunctions level', ?_, ?_⟩
  · rw [applications?_of_no_power hpower' hfinish', hlevel']
    rfl
  · exact (hnested.units hends hpower hpower' none).settleAll ⟨rfl, nofun⟩ (settled_units nofun hpower) hopens

end AlgebraTutor.Reader
