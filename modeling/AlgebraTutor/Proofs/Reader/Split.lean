import AlgebraTutor.Proofs.Reader.Difference

/-!
# Taking a difference apart

A derivation reads tokens whose parentheses match, and it reads them alike whatever it leaves. So what it reads between a
parenthesis and the one that matches it, it would read there alone: a phrase that is derived from two groups with a minus
between them is the difference of the two phrases that are derived from their contents.
-/

namespace AlgebraTutor.Reader

/-! ### Matching parentheses -/

/-- Where the parentheses before a closing one match, they tell what stands before it. -/
theorem eq_of_closes {ts us more rest : List Token} (hts : closes 0 ts = true) (hus : closes 0 us = true)
    (heq : ts ++ .mark .closeParen :: more = us ++ .mark .closeParen :: rest) : ts = us ∧ more = rest := by
  have hcut {vs : List Token} {t : Token} {ws : List Token} (h : closes 0 vs = true)
      (hlonger : closes 0 (vs ++ t :: ws) = true) : t ≠ .mark .closeParen := by
    rintro rfl
    rw [show (0 : Nat) = 0 + 0 from rfl, closes_append h] at hlonger
    simp [closes] at hlonger
  rcases List.append_eq_append_iff.mp heq with ⟨vs, rfl, htail⟩ | ⟨vs, rfl, htail⟩
  · cases vs with
    | nil => exact ⟨by simp, by simpa using htail⟩
    | cons v vs => exact absurd (List.cons.inj htail).1.symm (hcut hts hus)
  · cases vs with
    | nil => exact ⟨by simp, by simpa using htail.symm⟩
    | cons v vs => exact absurd (List.cons.inj htail).1.symm (hcut hus hts)

theorem closes_cons_congr {ts us : List Token} (h : ∀ depth, closes depth ts = closes depth us) (depth : Nat) (t : Token) :
    closes depth (t :: ts) = closes depth (t :: us) := by
  by_cases hopen : t = .mark .openParen
  · subst hopen
    exact h (depth + 1)
  · by_cases hclose : t = .mark .closeParen
    · subst hclose
      cases depth with
      | zero => rfl
      | succ depth => exact h depth
    · rw [closes_cons hopen hclose, closes_cons hopen hclose, h]

/-! ### Parentheses as the grammar takes them -/

theorem closes_fuseMarks (depth : Nat) (ts : List Token) : closes depth (fuseMarks ts) = closes depth ts := by
  have hmark {m : Mark} (hm : m ≠ .openParen ∧ m ≠ .closeParen) (depth : Nat) (us : List Token) :
      closes depth (.mark m :: us) = closes depth us := closes_cons (by simpa using hm.1) (by simpa using hm.2) us
  fun_induction fuseMarks ts generalizing depth with
  | case1 ts ih | case2 ts ih => rw [hmark (by simp), hmark (by simp), hmark (by simp), ih]
  | case3 ts ih => rw [hmark (by simp), hmark (by simp), hmark (by simp), hmark (by simp), ih]
  | case4 t ts _ _ _ ih => exact closes_cons_congr ih depth t
  | case5 => rfl

theorem closes_grammarTokens (depth : Nat) (ts : List Token) : closes depth (grammarTokens ts) = closes depth ts := by
  rw [grammarTokens, closes_fuseMarks]
  induction ts generalizing depth with
  | nil => rfl
  | cons t ts ih =>
    have hsplit (us : List Token) : closes depth (splitMark t ++ us) = closes depth (t :: us) := by
      unfold splitMark
      split
      case h_5 => rfl
      all_goals
        rw [closes_cons (by simp) (by simp)]
        repeat rw [List.cons_append, closes_cons (by simp) (by simp)]
        rfl
    rw [List.flatMap_cons, hsplit]
    exact closes_cons_congr ih depth t

/-! ### Parentheses of implicit applications -/

/-- The parentheses that are opened after a unit are owed, and those that are closed were owed before. -/
theorem closes_settle {debt : Debt} {u next : Unit} (hpower : debt.inPower = false) (hnext : next.isMark .doubleStar = false)
    (depth : Nat) (ts : List Token) :
    closes (depth + debt.parens) ((settle debt u next).1 ++ ts) = closes (depth + (settle debt u next).2.parens) ts := by
  have hclose (hparens : ¬debt.parens = 0) :
      closes (depth + debt.parens) (.mark .closeParen :: ts) = closes (depth + (debt.parens - 1)) ts := by
    obtain ⟨n, hn⟩ := Nat.exists_eq_succ_of_ne_zero hparens
    rw [hn]
    rfl
  rw [settle_of_no_power hpower hnext]
  split_ifs <;> first | rfl | exact hclose (by assumption)

theorem closes_closers (depth : Nat) : closes depth (List.replicate depth (.mark .closeParen)) = true := by
  induction depth with
  | zero => rfl
  | succ depth ih => exact ih

/-- A unit is settled, and the parentheses of an applied function match. -/
structure Unit.Matches (u : Unit) : Prop where
  noPower : u.isMark .doubleStar = false
  closed : ∀ ts, u = .applied ts → closes 0 ts = true

theorem Unit.Matches.of_token {t : Token} (hpower : t ≠ .mark .doubleStar) : (Unit.token t).Matches where
  noPower := by simpa [Unit.isMark] using hpower
  closed _ heq := Unit.noConfusion heq

/-- Over a unit a depth changes by what the unit opens and closes, whatever is open around it. -/
theorem Unit.Matches.exists_depth {u : Unit} (h : u.Matches) {depth : Nat} {ts : List Token}
    (hclosed : closes depth (u.tokens ++ ts) = true) :
    ∃ inner, closes inner ts = true ∧
      ∀ (more : Nat) (us : List Token), closes (more + depth) (u.tokens ++ us) = closes (more + inner) us := by
  cases u with
  | applied vs =>
    have hvs (depth : Nat) (us : List Token) : closes depth (vs ++ us) = closes depth us :=
      @closes_append depth 0 vs (h.closed vs rfl) us
    exact ⟨depth, (hvs depth ts).symm.trans hclosed, fun more us => hvs _ us⟩
  | token t =>
    by_cases hopen : t = .mark .openParen
    · subst hopen
      exact ⟨depth + 1, hclosed, fun _ _ => rfl⟩
    · by_cases hclose : t = .mark .closeParen
      · subst hclose
        cases depth with
        | zero => simp [Unit.tokens, closes] at hclosed
        | succ depth => exact ⟨depth, hclosed, fun _ _ => rfl⟩
      · have hskip (depth : Nat) (us : List Token) : closes depth ([t] ++ us) = closes depth us := closes_cons hopen hclose us
        exact ⟨depth, (hskip depth ts).symm.trans hclosed, fun more us => hskip _ us⟩

/-- Every parenthesis of an implicit application is closed. -/
theorem closes_settleAll {debt : Debt} {us : List Unit} (hpower : debt.inPower = false) (hus : ∀ u ∈ us, u.Matches)
    (hparens : us = [] → debt.parens = 0) {depth : Nat} (h : closes depth (us.flatMap Unit.tokens) = true) :
    closes (depth + debt.parens) (settleAll debt us) = true := by
  induction us generalizing debt depth with
  | nil => rwa [hparens rfl]
  | cons u us ih =>
    rw [List.forall_mem_cons] at hus
    obtain ⟨inner, hinner, hdepth⟩ := hus.1.exists_depth h
    rw [Nat.add_comm]
    cases us with
    | nil =>
      obtain rfl : inner = 0 := by simpa [closes] using hinner
      exact (hdepth _ _).trans (closes_closers _)
    | cons next us =>
      have hnext := (hus.2 next List.mem_cons_self).noPower
      rw [settleAll_cons_cons, hdepth, Nat.add_comm, closes_settle hpower hnext]
      exact ih (inPower_settle hpower hnext) hus.2 (by simp) hinner

/-- The units keep the depth of what follows them, and so does each that is a function with its own parentheses. -/
structure KeepsDepth (us : List Unit) : Prop where
  matching : ∀ u ∈ us, u.Matches
  tokens : ∀ depth ts, closes depth (us.flatMap Unit.tokens ++ ts) = closes depth ts

theorem KeepsDepth.append {us vs : List Unit} (h : KeepsDepth us) (h' : KeepsDepth vs) : KeepsDepth (us ++ vs) where
  matching := List.forall_mem_append.mpr ⟨h.matching, h'.matching⟩
  tokens depth ts := by rw [List.flatMap_append, List.append_assoc, h.tokens, h'.tokens]

theorem keepsDepth_nil : KeepsDepth [] :=
  ⟨by simp, fun _ _ => rfl⟩

theorem keepsDepth_token {t : Token} (hopen : t ≠ .mark .openParen) (hclose : t ≠ .mark .closeParen)
    (hpower : t ≠ .mark .doubleStar) : KeepsDepth [.token t] where
  matching := List.forall_mem_singleton.mpr (.of_token hpower)
  tokens _ ts := closes_cons hopen hclose ts

theorem KeepsDepth.closes_settleAll {us : List Unit} (h : KeepsDepth us) : closes 0 (settleAll .none us) = true := by
  have htokens := h.tokens 0 []
  rw [List.append_nil] at htokens
  exact @Reader.closes_settleAll .none us rfl h.matching (fun _ => rfl) 0 htokens

theorem keepsDepth_pending {function : Option Token} (hfunction : ∀ f ∈ function, Unit.isFunction (.token f) = true) :
    KeepsDepth (function.toList.map .token) := by
  cases function with
  | none => exact keepsDepth_nil
  | some f =>
    have hmark (m : Mark) : f ≠ .mark m := by
      rintro rfl
      simpa [Unit.isFunction] using hfunction _ rfl
    exact keepsDepth_token (hmark _) (hmark _) (hmark _)

theorem closes_groupTokens {content : List Nested} (h : KeepsDepth (units none content)) (depth : Nat) (ts : List Token) :
    closes depth (groupTokens content ++ ts) = closes depth ts := by
  have hcontent := @closes_append (depth + 1) 0 _ h.closes_settleAll (.mark .closeParen :: ts)
  rw [groupTokens, List.cons_append, List.append_assoc]
  exact hcontent

/-- Implicit applications are written level by level with matching parentheses. -/
theorem keepsDepth_units {function : Option Token} (hfunction : ∀ f ∈ function, Unit.isFunction (.token f) = true)
    {ns : List Nested} (hns : Nested.arePlain ns = true) (hstar : Token.mark .doubleStar ∉ Nested.flatAll ns) :
    KeepsDepth (units function ns) := by
  have hpending := keepsDepth_pending hfunction
  cases ns with
  | nil => exact hpending
  | cons n rest =>
    cases n with
    | token t =>
      simp only [Nested.arePlain, Nested.isPlain, Bool.and_eq_true, bne_iff_ne, ne_eq] at hns
      obtain ⟨hpower, hrest⟩ : Token.mark .doubleStar ≠ t ∧ Token.mark .doubleStar ∉ Nested.flatAll rest := by
        simpa [Nested.flatAll, Nested.flat] using hstar
      rw [units, unitsOf]
      split
      · rename_i hcallable
        exact hpending.append (@keepsDepth_units (some t) (by simpa using hcallable) rest hns.2 hrest)
      · exact (hpending.append (keepsDepth_token hns.1.1 hns.1.2 hpower.symm)).append
          (@keepsDepth_units none (by simp) rest hns.2 hrest)
    | group content =>
      obtain ⟨hcontent, hrest⟩ := Nested.no_power_group hstar
      simp only [Nested.arePlain, Nested.isPlain, Bool.and_eq_true] at hns
      have hgroup := closes_groupTokens (@keepsDepth_units none (by simp) content hns.1 hcontent)
      have hlater := @keepsDepth_units none (by simp) rest hns.2 hrest
      cases function with
      | none =>
        rw [units_group]
        refine KeepsDepth.append ⟨fun u hu => ?_, fun depth ts => ?_⟩ hlater
        · obtain ⟨t, ht, rfl⟩ := List.mem_map.mp hu
          have hnone := (@settled_groupTokens content (settled_units (by simp) hcontent) [] .nil).1
          exact .of_token fun heq => hnone (heq ▸ ht)
        · simpa [List.flatMap_map, Unit.tokens] using hgroup depth ts
      | some f =>
        rw [units_applied_group]
        have hcall (depth : Nat) (ts : List Token) : closes depth (f :: (groupTokens content ++ ts)) = closes depth ts := by
          have hf := hpending.tokens depth (groupTokens content ++ ts)
          exact hf.trans (hgroup depth ts)
        refine @KeepsDepth.append [_] _ ⟨List.forall_mem_singleton.mpr ⟨rfl, fun ts hts => ?_⟩, fun depth ts => ?_⟩ hlater
        · obtain rfl := Unit.applied.inj hts
          simpa [closes] using hcall 0 []
        · simpa [Unit.tokens] using hcall depth ts
termination_by sizeOf ns

theorem closes_applications? {ts us : List Token} (hpower : Token.mark .doubleStar ∉ ts) (hfinish : Token.finish ∉ ts)
    (happly : applications? ts = some us) : closes 0 us = true := by
  rw [applications?_of_no_power hpower hfinish] at happly
  obtain ⟨level, hlevel, rfl⟩ := Option.map_eq_some_iff.mp happly
  have hplain := Nested.arePlain_of_ofTokens? (by simp) rfl hlevel
  exact (@keepsDepth_units none (by simp) level hplain (Nested.flatAll_eq_of_ofTokens? hlevel ▸ hpower)).closes_settleAll

namespace Phrase

/-! ### What a derivation leaves -/

theorem EndsOperand.of_append {rest more : List Token} (h : EndsOperand (rest ++ more)) : EndsOperand rest := by
  cases rest with
  | nil => exact ⟨by simp, by simp⟩
  | cons t rest => exact h

/-- A derivation reads the same from the tokens before an end that it leaves. -/
theorem Derives.cut {r : Rule} {ts whole : List Token} {p : Phrase} (h : Derives r ts p whole) {rest more : List Token}
    (hwhole : whole = rest ++ more) : ∃ us, ts = us ++ more ∧ Derives r us p rest := by
  have hhead {P : Token → Prop} {rest : List Token} (h : ∀ t ∈ (rest ++ more).head?, P t) : ∀ t ∈ rest.head?, P t := by
    cases rest with
    | nil => simp
    | cons t rest => exact h
  have hne {t : Token} {rest : List Token} (h : (rest ++ more).head? ≠ some t) : rest.head? ≠ some t := by
    cases rest with
    | nil => simp
    | cons u rest => exact h
  induction h generalizing rest with
  | sum _ _ ih₁ ih₂ =>
    obtain ⟨mid, hmid, hrest⟩ := ih₂ hwhole
    obtain ⟨us, rfl, hfirst⟩ := ih₁ hmid
    exact ⟨us, rfl, .sum hfirst hrest⟩
  | sumEnd hend =>
    subst hwhole
    exact ⟨rest, rfl, .sumEnd (hhead hend)⟩
  | sumStep hop _ _ ih₁ ih₂ =>
    obtain ⟨mid, hmid, hrest⟩ := ih₂ hwhole
    obtain ⟨us, rfl, hright⟩ := ih₁ hmid
    exact ⟨_ :: us, rfl, .sumStep hop hright hrest⟩
  | product _ _ ih₁ ih₂ =>
    obtain ⟨mid, hmid, hrest⟩ := ih₂ hwhole
    obtain ⟨us, rfl, hfirst⟩ := ih₁ hmid
    exact ⟨us, rfl, .product hfirst hrest⟩
  | productEnd hend =>
    subst hwhole
    exact ⟨rest, rfl, .productEnd (hhead hend)⟩
  | productStep hop _ _ ih₁ ih₂ =>
    obtain ⟨mid, hmid, hrest⟩ := ih₂ hwhole
    obtain ⟨us, rfl, hright⟩ := ih₁ hmid
    exact ⟨_ :: us, rfl, .productStep hop hright hrest⟩
  | negative _ ih =>
    obtain ⟨us, rfl, hfactor⟩ := ih hwhole
    exact ⟨_ :: us, rfl, .negative hfactor⟩
  | positive _ ih =>
    obtain ⟨us, rfl, hfactor⟩ := ih hwhole
    exact ⟨_ :: us, rfl, .positive hfactor⟩
  | power _ _ ih₁ ih₂ =>
    obtain ⟨mid, rfl, hexponent⟩ := ih₂ hwhole
    obtain ⟨us, rfl, hbase⟩ := @ih₁ (.mark .doubleStar :: mid) rfl
    exact ⟨us, rfl, .power hbase hexponent⟩
  | base _ hend ih =>
    obtain ⟨us, rfl, hbase⟩ := ih hwhole
    exact ⟨us, rfl, .base hbase (hne (hwhole ▸ hend))⟩
  | name hend =>
    subst hwhole
    exact ⟨_ :: rest, rfl, .name hend.of_append⟩
  | literal hform hend =>
    subst hwhole
    exact ⟨_ :: rest, rfl, .literal hform hend.of_append⟩
  | quoted hend =>
    subst hwhole
    exact ⟨_ :: rest, rfl, .quoted hend.of_append⟩
  | paren _ hend ih =>
    subst hwhole
    obtain ⟨us, rfl, hinner⟩ := @ih (.mark .closeParen :: rest) rfl
    exact ⟨_ :: us, rfl, .paren hinner hend.of_append⟩
  | call _ hend ih =>
    obtain ⟨us, rfl, hargs⟩ := ih hwhole
    exact ⟨_ :: _ :: us, rfl, .call hargs (hwhole ▸ hend).of_append⟩
  | callParen _ _ hend ih₁ ih₂ =>
    obtain ⟨mid, rfl, hargs⟩ := ih₂ hwhole
    obtain ⟨us, rfl, hname⟩ := @ih₁ (.mark .closeParen :: .mark .openParen :: mid) rfl
    exact ⟨_ :: us, rfl, .callParen hname hargs (hwhole ▸ hend).of_append⟩
  | lastArg _ ih =>
    subst hwhole
    obtain ⟨us, rfl, harg⟩ := @ih (.mark .closeParen :: rest) rfl
    exact ⟨us, rfl, .lastArg harg⟩
  | lastArgComma _ ih =>
    subst hwhole
    obtain ⟨us, rfl, harg⟩ := @ih (.mark .comma :: .mark .closeParen :: rest) rfl
    exact ⟨us, rfl, .lastArgComma harg⟩
  | nextArg _ _ ih₁ ih₂ =>
    obtain ⟨mid, rfl, hrest⟩ := ih₂ hwhole
    obtain ⟨us, rfl, harg⟩ := @ih₁ (.mark .comma :: mid) rfl
    exact ⟨us, rfl, .nextArg harg hrest⟩

/-- The number of parentheses that a rule closes without opening them: arguments are read up to the parenthesis behind them. -/
def Rule.closing : Rule → Nat
  | .args _ _ => 1
  | _ => 0

theorem ne_paren_of_additive? {t : Token} {op : Operation} (h : additive? t = some op) :
    t ≠ .mark .openParen ∧ t ≠ .mark .closeParen := by
  constructor <;> rintro rfl <;> simp [additive?] at h

theorem ne_paren_of_multiplicative? {t : Token} {op : Operation} (h : multiplicative? t = some op) :
    t ≠ .mark .openParen ∧ t ≠ .mark .closeParen := by
  constructor <;> rintro rfl <;> simp [multiplicative?] at h

/-- The parentheses of what a derivation reads match. -/
theorem Derives.closes_eq {r : Rule} {ts rest : List Token} {p : Phrase} (h : Derives r ts p rest) (depth : Nat) :
    closes (depth + r.closing) ts = closes depth rest := by
  induction h generalizing depth with
  | sum _ _ ih₁ ih₂ | product _ _ ih₁ ih₂ => exact (ih₁ depth).trans (ih₂ depth)
  | sumEnd | productEnd => rfl
  | sumStep hop _ _ ih₁ ih₂ =>
    obtain ⟨hopen, hclose⟩ := ne_paren_of_additive? hop
    exact (closes_cons hopen hclose _).trans ((ih₁ depth).trans (ih₂ depth))
  | productStep hop _ _ ih₁ ih₂ =>
    obtain ⟨hopen, hclose⟩ := ne_paren_of_multiplicative? hop
    exact (closes_cons hopen hclose _).trans ((ih₁ depth).trans (ih₂ depth))
  | negative _ ih | positive _ ih => exact (closes_cons (by simp) (by simp) _).trans (ih depth)
  | power _ _ ih₁ ih₂ => exact (ih₁ depth).trans ((closes_cons (by simp) (by simp) _).trans (ih₂ depth))
  | base _ _ ih => exact ih depth
  | name | literal | quoted => exact closes_cons (by simp) (by simp) _
  | paren _ _ ih => exact ih (depth + 1)
  | call _ _ ih => exact (closes_cons (by simp) (by simp) _).trans (ih depth)
  | callParen _ _ _ ih₁ ih₂ => exact (ih₁ (depth + 1)).trans (ih₂ depth)
  | lastArg _ ih => exact ih (depth + 1)
  | lastArgComma _ ih => exact (ih (depth + 1)).trans (closes_cons (by simp) (by simp) _)
  | nextArg _ _ ih₁ ih₂ => exact (ih₁ (depth + 1)).trans ((closes_cons (by simp) (by simp) _).trans (ih₂ depth))

/-! ### Two groups with a minus between them -/

/-- What is read from a group is what is read from its content, and what stands behind the group is left. -/
theorem Derives.of_group {ts more rest : List Token} {p : Phrase} (hts : closes 0 ts = true) (hmore : EndsOperand more)
    (h : Derives .operand (.mark .openParen :: (ts ++ .mark .closeParen :: more)) p rest) :
    Derives .sum ts p [] ∧ rest = more := by
  have hinner {rest : List Token} {q : Phrase} (h : Derives .sum (ts ++ .mark .closeParen :: more) q (.mark .closeParen :: rest)) :
      Derives .sum ts q [] ∧ rest = more := by
    obtain ⟨us, heq, hus⟩ := @Derives.cut _ _ _ _ h [] _ rfl
    obtain ⟨rfl, rfl⟩ := eq_of_closes hts (hus.closes_eq 0) heq
    exact ⟨hus, rfl⟩
  cases h with
  | paren h _ => exact hinner h
  | callParen hname hargs _ =>
    obtain ⟨-, rfl⟩ := hinner hname
    simp [EndsOperand] at hmore

/-- The same as a product, if nothing behind the group goes on with one. -/
theorem Derives.of_group_product {ts more rest : List Token} {p : Phrase} (hts : closes 0 ts = true) (hmore : EndsFactor more)
    (hproduct : ∀ t ∈ more.head?, multiplicative? t = none)
    (h : Derives .product (.mark .openParen :: (ts ++ .mark .closeParen :: more)) p rest) :
    Derives .sum ts p [] ∧ rest = more := by
  cases h with
  | product hfirst hrest =>
    cases hfirst with
    | power hbase _ =>
      obtain ⟨-, rfl⟩ := hbase.of_group hts hmore.1
      simp [EndsFactor] at hmore
    | base hbase _ =>
      obtain ⟨hp, rfl⟩ := hbase.of_group hts hmore.1
      cases hrest with
      | productEnd => exact ⟨hp, rfl⟩
      | productStep hop _ _ => simp [hproduct _ rfl] at hop

/-- What is read from two groups with a minus between them is the difference of what is read from their contents. -/
theorem Derives.of_difference {ts us : List Token} {p : Phrase} (hts : closes 0 ts = true) (hus : closes 0 us = true)
    (h : Derives .sum (differenceTokens ts us) p []) :
    ∃ q q', p = .binary .sub q q' ∧ Derives .sum ts q [] ∧ Derives .sum us q' [] := by
  cases h with
  | sum hfirst hrest =>
    obtain ⟨hq, rfl⟩ := hfirst.of_group_product hts ⟨⟨by simp, by simp⟩, by simp⟩ (by simp [multiplicative?])
    cases hrest with
    | sumStep hop hright hrest =>
      obtain rfl := Option.some.inj hop
      obtain ⟨hq', rfl⟩ := hright.of_group_product hus ⟨⟨by simp, by simp⟩, by simp⟩ (by simp)
      cases hrest
      exact ⟨_, _, rfl, hq, hq'⟩

end Phrase

/-! ### Two texts with a minus between them -/

theorem exists_applications? {ts : List Token} (hpower : Token.mark .doubleStar ∉ ts) (hfinish : Token.finish ∉ ts)
    (hts : closes 0 ts = true) : ∃ us, applications? ts = some us := by
  obtain ⟨level, hlevel⟩ := Option.isSome_iff_exists.mp ((Nested.isSome_ofTokens? [] [] ts).trans hts)
  exact ⟨applyFunctions level, by rw [applications?_of_no_power hpower hfinish, hlevel]; rfl⟩

/-- A difference of two texts without powers is read as the difference of what the texts are read as, as long as the
parentheses of either match. -/
theorem Reads.of_difference {vars : List Char} {ls ls' : List Lexeme} {d : Tree}
    (h : Reads .powers vars (differenceLexemes ls ls') d) (hls : closes 0 (spell vars false ls) = true)
    (hls' : closes 0 (spell vars false ls') = true) :
    ∃ t u, d = .binary .sub t u ∧ Reads .powers vars ls t ∧ Reads .powers vars ls' u := by
  obtain ⟨vs, p, happly, hp, hd⟩ := h.derived
  have hdot : Lexeme.mark .dot ∉ ls ∧ Lexeme.mark .dot ∉ ls' := by simpa [differenceLexemes] using h.noDot
  have hpower : Omission.powers.Holds ls ∧ Omission.powers.Holds ls' := by
    simpa [differenceLexemes, Omission.Holds] using h.omits
  have happlied {ls : List Lexeme} (hls : closes 0 (spell vars false ls) = true) (hpower : Omission.powers.Holds ls) :
      ∃ ts, applications? (insertProducts false (spell vars false ls)) = some ts ∧ closes 0 (grammarTokens ts) = true := by
    obtain ⟨ts, hts⟩ := exists_applications? (power_not_mem_spell hpower) finish_not_mem_insertProducts
      ((closes_insertProducts 0 false _).trans hls)
    refine ⟨ts, hts, ?_⟩
    rw [closes_grammarTokens, closes_applications? (power_not_mem_spell hpower) finish_not_mem_insertProducts hts]
  obtain ⟨ts, hts, hclosed⟩ := happlied hls hpower.1
  obtain ⟨us, hus, hclosed'⟩ := happlied hls' hpower.2
  have hwhole := hpower.1.applications?_difference hpower.2 hdot.1 hdot.2 hts hus
  obtain rfl := Option.some.inj (hwhole.symm.trans happly)
  rw [grammarTokens_difference] at hp
  obtain ⟨q, q', rfl, hq, hq'⟩ := hp.of_difference hclosed hclosed'
  obtain ⟨op, hop, t, ht, u, hu, rfl⟩ := treeOf_binary_eq_ok_iff.mp (hd "")
  obtain rfl := Option.some.inj hop
  exact ⟨t, u, rfl, ⟨hdot.1, hpower.1, ts, q, hts, hq, fun _ => treeOf_of_text ht⟩,
    hdot.2, hpower.2, us, q', hus, hq', fun _ => treeOf_of_text hu⟩

end AlgebraTutor.Reader
