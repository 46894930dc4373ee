import AlgebraTutor.Proofs.Reader.Application

/-!
# Levels without powers of functions

Where no double star is written, no power stands between a function and its argument. Then what is written at a level is
settled: every function in it stands before a mark, so an outer level leaves it alone.
-/

namespace AlgebraTutor.Reader

/-! ### Levels and their tokens -/

namespace Nested

mutual

/-- Parentheses are groups, not tokens. -/
def isPlain : Nested → Bool
  | .token t => t != .mark .openParen && t != .mark .closeParen
  | .group content => arePlain content

/-- Parentheses are groups, not tokens, in a whole level. -/
def arePlain : List Nested → Bool
  | [] => true
  | n :: ns => isPlain n && arePlain ns

end

theorem arePlain_iff {ns : List Nested} : arePlain ns = true ↔ ∀ n ∈ ns, isPlain n = true := by
  induction ns with
  | nil => simp [arePlain]
  | cons n ns ih => simp [arePlain, ih]

theorem arePlain_of_ofTokens? {outer : List (List Nested)} {current level : List Nested} {ts : List Token}
    (houter : ∀ ns ∈ outer, arePlain ns = true) (hcurrent : arePlain current = true)
    (h : ofTokens? outer current ts = some level) : arePlain level = true := by
  fun_induction ofTokens? outer current ts with
  | case1 current outer =>
    obtain rfl := Option.some.inj h
    simpa [arePlain_iff] using hcurrent
  | case2 | case5 => simp at h
  | case3 outer current ts ih => exact ih (List.forall_mem_cons.mpr ⟨hcurrent, houter⟩) rfl h
  | case4 current ts enclosing outer ih =>
    rw [List.forall_mem_cons] at houter
    refine ih houter.2 ?_ h
    simpa [arePlain, isPlain, houter.1, arePlain_iff] using hcurrent
  | case6 outer current t ts hopen hclose ih =>
    refine ih houter ?_ h
    simpa [arePlain, isPlain, hcurrent] using ⟨hopen, hclose⟩

mutual

theorem ofTokens?_flat {n : Nested} (hn : isPlain n = true) (outer : List (List Nested)) (current : List Nested)
    (rest : List Token) : ofTokens? outer current (flat n ++ rest) = ofTokens? outer (n :: current) rest := by
  match n with
  | .token t =>
    simp only [isPlain, Bool.and_eq_true, bne_iff_ne, ne_eq] at hn
    rw [flat, List.singleton_append, ofTokens?]
    · exact hn.1
    · exact hn.2
  | .group content =>
    have hcontent := ofTokens?_flatAll (by simpa [isPlain] using hn) (current :: outer) [] (.mark .closeParen :: rest)
    rw [List.append_nil] at hcontent
    rw [flat, List.cons_append, List.cons_append, List.append_assoc, ofTokens?, List.singleton_append, hcontent, ofTokens?,
      List.reverse_reverse]

/-- Nesting the tokens of a level gives the level again. -/
theorem ofTokens?_flatAll {ns : List Nested} (hns : arePlain ns = true) (outer : List (List Nested)) (current : List Nested)
    (rest : List Token) : ofTokens? outer current (flatAll ns ++ rest) = ofTokens? outer (ns.reverse ++ current) rest := by
  match ns with
  | [] => rfl
  | n :: ns =>
    rw [arePlain, Bool.and_eq_true] at hns
    rw [flatAll, List.append_assoc, ofTokens?_flat hns.1, ofTokens?_flatAll hns.2, List.reverse_cons, List.append_assoc,
      List.singleton_append]

end

/-- Tokens that nest by themselves nest alike among other tokens. -/
theorem ofTokens?_append {ts : List Token} {level : List Nested} (h : ofTokens? [] [] ts = some level)
    (outer : List (List Nested)) (current : List Nested) (rest : List Token) :
    ofTokens? outer current (ts ++ rest) = ofTokens? outer (level.reverse ++ current) rest := by
  rw [← flatAll_eq_of_ofTokens? h, ofTokens?_flatAll (arePlain_of_ofTokens? (by simp) rfl h)]

end Nested

/-! ### What is owed without powers -/

/-- Nothing is owed. -/
abbrev Debt.none : Debt :=
  ⟨0, false, false⟩

theorem settleAll_cons_cons (debt : Debt) (u next : Unit) (us : List Unit) :
    settleAll debt (u :: next :: us) =
      u.tokens ++ ((settle debt u next).1 ++ settleAll (settle debt u next).2 (next :: us)) := by
  rw [settleAll]
  exact List.append_assoc _ _ _

theorem exists_settleAll_cons (debt : Debt) (u : Unit) (us : List Unit) : ∃ more, settleAll debt (u :: us) = u.tokens ++ more := by
  cases us with
  | nil => exact ⟨_, rfl⟩
  | cons next us => exact ⟨_, settleAll_cons_cons debt u next us⟩

section Settle

variable {debt : Debt} {u next : Unit}

theorem eq_paren_of_mem_settle {t : Token} (h : t ∈ (settle debt u next).1) :
    t = .mark .openParen ∨ t = .mark .closeParen := by
  unfold settle at h
  grind

/-- What is written and owed where no power is near. -/
theorem settle_of_no_power (hpower : debt.inPower = false) (hnext : next.isMark .doubleStar = false) :
    settle debt u next =
      if u.isName && !next.isStop then
        if u.isFunction then ([.mark .openParen], { debt with parens := debt.parens + 1 }) else ([], debt)
      else if debt.parens = 0 then ([], debt)
      else if next.continues then ([], { debt with passNext := true })
      else if debt.passNext then ([], { debt with passNext := false })
      else ([.mark .closeParen], { debt with parens := debt.parens - 1 }) := by
  simp [settle, hpower, hnext]

theorem inPower_settle (hpower : debt.inPower = false) (hnext : next.isMark .doubleStar = false) :
    (settle debt u next).2.inPower = false := by
  rw [settle_of_no_power hpower hnext]
  split_ifs <;> exact hpower

/-- Before the end of the text at most one parenthesis is closed, and none is opened. -/
theorem settle_finish (hpower : debt.inPower = false) :
    ∃ n, (settle debt u (.token .finish)).1 = List.replicate n (.mark .closeParen) ∧
      n + (settle debt u (.token .finish)).2.parens = debt.parens := by
  have hstop : Unit.isStop (.token .finish) = true := rfl
  have hcontinues : Unit.continues (.token .finish) = false := rfl
  have hstar : Unit.isMark .doubleStar (.token .finish) = false := rfl
  simp only [settle_of_no_power hpower hstar, hstop, hcontinues, Bool.not_true, Bool.and_false, Bool.false_eq_true, if_false]
  split_ifs with hparens hpass
  · exact ⟨0, rfl, by simp⟩
  · exact ⟨0, rfl, by simp⟩
  · exact ⟨1, rfl, by simp only; omega⟩

end Settle

/-- The ends of the text change nothing in what is written before them. -/
theorem filter_settleAll_finish {debt : Debt} {us : List Unit} (hpower : debt.inPower = false)
    (hparens : us = [] → debt.parens = 0) (hus : ∀ u ∈ us, u.isMark .doubleStar = false) (hfinish : Token.finish ∉ us.flatMap Unit.tokens) :
    (settleAll debt (us ++ [.token .finish, .token .finish])).filter (· != .finish) = settleAll debt us := by
  have hclosers (n : Nat) : (List.replicate n (Token.mark .closeParen)).filter (· != .finish) = List.replicate n (.mark .closeParen) :=
    List.filter_eq_self.mpr fun t ht => by simp [(List.mem_replicate.mp ht).2]
  have hend {debt : Debt} (hpower : debt.inPower = false) :
      (settleAll debt [.token .finish, .token .finish]).filter (· != .finish) = List.replicate debt.parens (.mark .closeParen) := by
    obtain ⟨n, hadded, hn⟩ := settle_finish (u := .token .finish) hpower
    simp [settleAll, Unit.tokens, hadded, hclosers, ← hn, ← List.replicate_append_replicate]
  have htokens {u : Unit} (hu : Token.finish ∉ u.tokens) : u.tokens.filter (· != .finish) = u.tokens :=
    List.filter_eq_self.mpr fun t ht => by simpa using fun heq : t = .finish => hu (heq ▸ ht)
  induction us generalizing debt with
  | nil =>
    rw [List.nil_append, hend hpower, hparens rfl]
    rfl
  | cons u us ih =>
    rw [List.flatMap_cons, List.mem_append, not_or] at hfinish
    rw [List.forall_mem_cons] at hus
    cases us with
    | nil =>
      obtain ⟨n, hadded, hn⟩ := settle_finish (u := u) hpower
      rw [List.singleton_append, settleAll_cons_cons, List.filter_append, List.filter_append, htokens hfinish.1, hadded,
        hclosers, hend (inPower_settle hpower rfl), List.replicate_append_replicate, hn]
      rfl
    | cons next us =>
      have hnext := hus.2 next List.mem_cons_self
      have hadded : (settle debt u next).1.filter (· != .finish) = (settle debt u next).1 :=
        List.filter_eq_self.mpr fun t ht => by rcases eq_paren_of_mem_settle ht with rfl | rfl <;> rfl
      rw [List.cons_append, List.cons_append, settleAll_cons_cons, List.filter_append, List.filter_append, htokens hfinish.1,
        hadded, ← List.cons_append, ih (inPower_settle hpower hnext) (by simp) hus.2 hfinish.2, settleAll_cons_cons]

/-! ### Settled tokens -/

/-- A function stands before a mark that is no power, or at the end. -/
def Settled (t u : Token) : Prop :=
  Idle (.token t) (.token u)

theorem settled_of_not_function {t : Token} (ht : Unit.isFunction (.token t) = false) (u : Token) : Settled t u :=
  fun hfunction => absurd hfunction (by simp [ht])

theorem isChain_settled_cons {t : Token} (ht : Unit.isFunction (.token t) = false) {ts : List Token}
    (hts : ts.IsChain Settled) : (t :: ts).IsChain Settled :=
  List.isChain_cons.mpr ⟨fun u _ => settled_of_not_function ht u, hts⟩

theorem isChain_settled_append {ts us : List Token} (hts : ∀ t ∈ ts, Unit.isFunction (.token t) = false)
    (hus : us.IsChain Settled) : (ts ++ us).IsChain Settled := by
  induction ts with
  | nil => exact hus
  | cons t ts ih =>
    rw [List.forall_mem_cons] at hts
    exact isChain_settled_cons hts.1 (ih hts.2)

/-- A unit in which nothing is owed: a single token, or settled tokens up to a closing parenthesis. -/
structure Unit.IsSettled (u : Unit) : Prop where
  noPower : Token.mark .doubleStar ∉ u.tokens
  closed : ∀ ts, u = .applied ts → ∃ us, ts = us ++ [.mark .closeParen]
  chain : u.tokens.IsChain Settled

namespace Unit.IsSettled

theorem of_token {t : Token} (ht : t ≠ .mark .doubleStar) : (Unit.token t).IsSettled where
  noPower h := ht (List.mem_singleton.mp h).symm
  closed := nofun
  chain := List.isChain_singleton t

theorem isMark {u : Unit} (h : u.IsSettled) : u.isMark .doubleStar = false := by
  cases u with
  | token t =>
    have hne : t ≠ .mark .doubleStar := fun heq => h.noPower (List.mem_singleton.mpr heq.symm)
    simpa [Unit.isMark] using hne
  | applied ts => rfl

/-- What follows a settled unit goes on with a chain, if a function is followed as it should be. -/
theorem chain_append {u : Unit} (h : u.IsSettled) {rest : List Token} (hrest : rest.IsChain Settled)
    (hnext : ∀ t ∈ rest.head?, Idle u (.token t)) : (u.tokens ++ rest).IsChain Settled := by
  cases u with
  | token t => exact List.isChain_cons.mpr ⟨hnext, hrest⟩
  | applied ts =>
    refine List.isChain_append.mpr ⟨h.chain, hrest, fun t ht v _ => ?_⟩
    obtain ⟨us, rfl⟩ := h.closed ts rfl
    rw [Unit.tokens, List.getLast?_concat] at ht
    obtain rfl := Option.some.inj ht
    exact settled_of_not_function rfl v

end Unit.IsSettled

/-- A function is followed by a parenthesis that is opened for it, or by a mark. -/
theorem idle_settle {debt : Debt} {u next : Unit} (hpower : debt.inPower = false) (hnext : next.isMark .doubleStar = false)
    {rest : List Token} (hrest : ∀ v, next = .token v → rest.head? = some v) :
    ∀ t ∈ ((settle debt u next).1 ++ rest).head?, Idle u (.token t) := by
  intro t ht hfunction
  have hname : u.isName = true := by
    cases u with
    | token v => cases v <;> simp_all [Unit.isFunction, Unit.isName]
    | applied => simp [Unit.isFunction] at hfunction
  by_cases hstop : next.isStop = true
  · have hadded : (settle debt u next).1 = [] ∨ (settle debt u next).1 = [.mark .closeParen] := by
      simp only [settle_of_no_power hpower hnext, hstop, Bool.not_true, Bool.and_false, Bool.false_eq_true, if_false]
      split_ifs <;> simp
    rcases hadded with hadded | hadded
    · rw [hadded, List.nil_append] at ht
      cases next with
      | token v =>
        obtain rfl : v = t := Option.some.inj ((hrest v rfl).symm.trans ht)
        exact ⟨hstop, hnext⟩
      | applied => simp [Unit.isStop] at hstop
    · obtain rfl : .mark .closeParen = t := by simpa [hadded] using ht
      exact ⟨rfl, rfl⟩
  · have hadded : (settle debt u next).1 = [.mark .openParen] := by
      simp [settle_of_no_power hpower hnext, hname, hstop, hfunction]
    obtain rfl : .mark .openParen = t := by simpa [hadded] using ht
    exact ⟨rfl, rfl⟩

/-- What is written of settled units is settled, whatever is owed before. -/
theorem settled_settleAll {debt : Debt} {us : List Unit} (hpower : debt.inPower = false) (hus : ∀ u ∈ us, u.IsSettled) :
    Token.mark .doubleStar ∉ settleAll debt us ∧ (settleAll debt us ++ [Token.mark .closeParen]).IsChain Settled := by
  induction us generalizing debt with
  | nil => exact ⟨by simp [settleAll], List.isChain_singleton _⟩
  | cons u us ih =>
    rw [List.forall_mem_cons] at hus
    cases us with
    | nil =>
      refine ⟨?_, ?_⟩
      · simp [settleAll, hus.1.noPower]
      · rw [settleAll, List.append_assoc]
        refine hus.1.chain_append (isChain_settled_append (fun t ht => ?_) (List.isChain_singleton _)) fun t ht _ => ?_
        · rw [(List.mem_replicate.mp ht).2]
          rfl
        · obtain rfl : Token.mark .closeParen = t := by cases hn : debt.parens <;> simpa [hn, List.replicate_succ] using ht
          exact ⟨rfl, rfl⟩
    | cons next us =>
      have hnext := (hus.2 next List.mem_cons_self).isMark
      obtain ⟨hstar, hchain⟩ := ih (inPower_settle (u := u) hpower hnext) hus.2
      rw [settleAll_cons_cons]
      refine ⟨?_, ?_⟩
      · simp only [List.mem_append, not_or]
        exact ⟨hus.1.noPower, fun h => by simpa using eq_paren_of_mem_settle h, hstar⟩
      · rw [List.append_assoc, List.append_assoc]
        refine hus.1.chain_append ?_ (idle_settle hpower hnext fun v hv => ?_)
        · refine isChain_settled_append (fun t ht => ?_) hchain
          rcases eq_paren_of_mem_settle ht with rfl | rfl <;> rfl
        · obtain ⟨more, hmore⟩ := exists_settleAll_cons (settle debt u next).2 next us
          rw [hmore, hv]
          rfl

/-- The tokens of a group, what is written within it included. -/
def groupTokens (content : List Nested) : List Token :=
  .mark .openParen :: (applyFunctions content ++ [.mark .closeParen])

theorem units_group (content rest : List Nested) :
    units none (.group content :: rest) = (groupTokens content).map .token ++ units none rest := by
  rw [units, unitsOf]
  rfl

theorem units_applied_group (f : Token) (content rest : List Nested) :
    units (some f) (.group content :: rest) = .applied (f :: groupTokens content) :: units none rest := by
  rw [units, unitsOf]
  rfl

theorem settled_groupTokens {content : List Nested} (hcontent : ∀ u ∈ units none content, u.IsSettled) {rest : List Token}
    (hrest : rest.IsChain Settled) :
    Token.mark .doubleStar ∉ groupTokens content ∧ (groupTokens content ++ rest).IsChain Settled := by
  obtain ⟨hpower, hchain⟩ := @settled_settleAll .none _ rfl hcontent
  refine ⟨by simpa [groupTokens, applyFunctions] using hpower, ?_⟩
  rw [groupTokens, List.cons_append, List.append_assoc, List.singleton_append]
  refine isChain_settled_cons rfl (List.isChain_split.mpr ⟨hchain, ?_⟩)
  exact isChain_settled_cons rfl hrest

theorem Nested.no_power_group {content rest : List Nested}
    (hstar : Token.mark .doubleStar ∉ Nested.flatAll (.group content :: rest)) :
    Token.mark .doubleStar ∉ Nested.flatAll content ∧ Token.mark .doubleStar ∉ Nested.flatAll rest := by
  simpa [Nested.flatAll, Nested.flat] using hstar

/-- A function without its argument is settled. -/
theorem settled_pending {function : Option Token} (hfunction : ∀ f ∈ function, Unit.isFunction (.token f) = true) :
    ∀ u ∈ function.toList.map Unit.token, u.IsSettled := by
  intro u hu
  obtain ⟨f, hf, rfl⟩ := List.mem_map.mp hu
  refine .of_token fun heq => ?_
  have hfunction := hfunction f (Option.mem_toList.mp hf)
  simp [heq, Unit.isFunction] at hfunction

/-- Every level is settled where no double star is written. -/
theorem settled_units {function : Option Token} {ns : List Nested}
    (hfunction : ∀ f ∈ function, Unit.isFunction (.token f) = true) (hstar : Token.mark .doubleStar ∉ Nested.flatAll ns) :
    ∀ u ∈ units function ns, u.IsSettled := by
  have hpending := settled_pending hfunction
  match ns with
  | [] => exact hpending
  | .token t :: rest =>
    obtain ⟨ht, hrest⟩ : Token.mark .doubleStar ≠ t ∧ Token.mark .doubleStar ∉ Nested.flatAll rest := by
      simpa [Nested.flatAll, Nested.flat] using hstar
    rw [units, unitsOf]
    split
    · rename_i hcallable
      exact List.forall_mem_append.mpr ⟨hpending, @settled_units (some t) rest (by simpa using hcallable) hrest⟩
    · exact List.forall_mem_append.mpr
        ⟨List.forall_mem_append.mpr ⟨hpending, by simpa using .of_token ht.symm⟩, @settled_units none rest (by simp) hrest⟩
  | .group content :: rest =>
    obtain ⟨hcontent, hrest⟩ := Nested.no_power_group hstar
    have hgroup := @settled_groupTokens content (@settled_units none content (by simp) hcontent) [] .nil
    rw [List.append_nil] at hgroup
    have hlater := @settled_units none rest (by simp) hrest
    cases function with
    | none =>
      rw [units_group]
      refine List.forall_mem_append.mpr ⟨fun u hu => ?_, hlater⟩
      obtain ⟨t, ht, rfl⟩ := List.mem_map.mp hu
      exact .of_token fun heq => hgroup.1 (heq ▸ ht)
    | some f =>
      rw [units_applied_group]
      refine List.forall_mem_cons.mpr ⟨⟨?_, fun ts hts => ?_, ?_⟩, hlater⟩
      · have hf := (hpending _ (List.mem_singleton_self _)).noPower
        simp only [Unit.tokens, List.mem_cons, not_or] at hf ⊢
        exact ⟨hf.1, hgroup.1⟩
      · obtain rfl := Unit.applied.inj hts
        exact ⟨f :: .mark .openParen :: applyFunctions content, rfl⟩
      · exact List.isChain_cons.mpr ⟨fun t ht _ => by obtain rfl := Option.some.inj ht; exact ⟨rfl, rfl⟩, hgroup.2⟩
termination_by sizeOf ns

/-! ### Tokens without powers -/

theorem units_concat {function : Option Token} {ns : List Nested} {t : Token} (ht : Unit.isFunction (.token t) = false) :
    units function (ns ++ [.token t]) = units function ns ++ [.token t] := by
  induction ns generalizing function with
  | nil => simp [units, unitsOf, ht]
  | cons n ns ih => simp only [List.cons_append, units, ih, List.append_assoc]

theorem movePowers_of_no_power {ts : List Token} (hts : Token.mark .doubleStar ∉ ts) : movePowers .outside ts = ts := by
  induction ts with
  | nil => rfl
  | cons t ts ih =>
    cases ts with
    | nil => rfl
    | cons u ts =>
      rw [List.mem_cons, not_or] at hts
      have hu : (u == .mark .doubleStar) = false := by
        simpa using fun heq : u = .mark .doubleStar => hts.2 (by rw [heq]; exact List.mem_cons_self)
      simp only [movePowers, hu, Bool.and_false, Bool.false_eq_true, if_false]
      rw [ih hts.2]

/-- Without powers, implicit applications are written level by level, and nothing else is done. -/
theorem applications?_of_no_power {ts : List Token} (hpower : Token.mark .doubleStar ∉ ts) (hfinish : Token.finish ∉ ts) :
    applications? ts = (Nested.ofTokens? [] [] ts).map applyFunctions := by
  cases hlevel : Nested.ofTokens? [] [] ts with
  | none =>
    have hopen : closes 0 ts = false := (Nested.isSome_ofTokens? [] [] ts).symm.trans (by rw [hlevel]; rfl)
    have hends : Nested.ofTokens? [] [] (ts ++ [.finish, .finish]) = none := by
      rw [← Option.not_isSome_iff_eq_none, Nested.isSome_ofTokens?, List.length_nil, closes_finish, hopen]
      simp
    rw [applications?, hends]
    rfl
  | some level =>
    have hflat := Nested.flatAll_eq_of_ofTokens? hlevel
    have hends : Nested.ofTokens? [] [] (ts ++ [.finish, .finish]) = some ((level ++ [.token .finish]) ++ [.token .finish]) := by
      rw [Nested.ofTokens?_append hlevel]
      simp [Nested.ofTokens?]
    have hunits : applyFunctions ((level ++ [.token .finish]) ++ [.token .finish]) =
        settleAll .none (units none level ++ [.token .finish, .token .finish]) := by
      rw [applyFunctions, units_concat rfl, units_concat rfl, List.append_assoc]
      rfl
    have hsettled : ∀ u ∈ units none level, u.IsSettled := settled_units (by simp) (hflat ▸ hpower)
    have hnone : Token.mark .doubleStar ∉ settleAll .none (units none level ++ [.token .finish, .token .finish]) := by
      refine (settled_settleAll rfl (List.forall_mem_append.mpr ⟨hsettled, fun u hu => ?_⟩)).1
      obtain rfl : u = .token .finish := by simpa using hu
      exact .of_token (by simp)
    have hcontent : Token.finish ∉ (units none level).flatMap Unit.tokens := by
      rw [mem_units rfl, hflat]
      simpa using hfinish
    rw [applications?, hends, Option.map_some, Option.map_some, hunits, movePowers_of_no_power hnone,
      filter_settleAll_finish rfl (fun _ => rfl) (fun u hu => (hsettled u hu).isMark) hcontent]
    rfl

/-- The tokens of two texts in parentheses with a minus between them. -/
def differenceTokens (ts us : List Token) : List Token :=
  .mark .openParen :: (ts ++ .mark .closeParen :: .mark .minus :: .mark .openParen :: (us ++ [.mark .closeParen]))

theorem ofTokens?_difference {ts us : List Token} {level level' : List Nested} (hts : Nested.ofTokens? [] [] ts = some level)
    (hus : Nested.ofTokens? [] [] us = some level') :
    Nested.ofTokens? [] [] (differenceTokens ts us) = some [.group level, .token (.mark .minus), .group level'] := by
  simp only [differenceTokens, Nested.ofTokens?, Nested.ofTokens?_append hts, Nested.ofTokens?_append hus, List.append_nil,
    List.reverse_reverse]
  rfl

end AlgebraTutor.Reader
