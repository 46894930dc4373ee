import AlgebraTutor.Proofs.Reader.Level
import AlgebraTutor.Proofs.Reader.Parens
import AlgebraTutor.Proofs.Reader.Piece
import AlgebraTutor.Proofs.Reader.Unknowns
import AlgebraTutor.Proofs.Text.Signs

/-!
# No two slashes

Two slashes, also with blanks between them, are a rounded quotient to the grammar, and no tree comes of one. What is written
between the text and the grammar never parts them: products are written behind an operand, a parenthesis that is closed
between them would be closed behind a slash, and a power that is moved stays in one piece.
-/

namespace AlgebraTutor.Reader

open Phrase (Awaits Derives Rule)

/-- Behind a slash stands neither another one nor a closing parenthesis. -/
def Divides (t u : Token) : Prop :=
  t = .mark .slash → u ≠ .mark .slash ∧ u ≠ .mark .closeParen

theorem isChain_divides_cons {t : Token} (ht : t ≠ .mark .slash) {ts : List Token} (hts : ts.IsChain Divides) :
    (t :: ts).IsChain Divides :=
  List.isChain_cons.mpr ⟨fun _ _ heq => absurd heq ht, hts⟩

/-! ### Phrases without rounded quotients -/

namespace Phrase

mutual

/-- There is no rounded quotient in the phrase. -/
def isExact : Phrase → Bool
  | .call _ args => areExact args
  | .negative p => isExact p
  | .positive p => isExact p
  | .binary op left right => op != .floorDiv && isExact left && isExact right
  | .name _ | .literal _ | .quoted _ | .other => true

/-- There is no rounded quotient in the phrases. -/
def areExact : List Phrase → Bool
  | [] => true
  | p :: ps => isExact p && areExact ps

end

theorem areExact_iff {ps : List Phrase} : areExact ps = true ↔ ∀ p ∈ ps, p.isExact = true := by
  induction ps with
  | nil => simp [areExact]
  | cons p ps ih => simp [areExact, ih]

/-- There is no rounded quotient in what a rule starts from. -/
def Rule.IsExact : Rule → Prop
  | .sumTail left | .productTail left => left.isExact = true
  | .args _ found => ∀ p ∈ found, p.isExact = true
  | _ => True

/-- A phrase without rounded quotients is read from tokens without double slashes. -/
theorem Derives.isExact {r : Rule} {ts rest : List Token} {p : Phrase} (h : Derives r ts p rest) (hp : p.isExact = true)
    (hrest : Token.mark .doubleSlash ∉ rest) : Token.mark .doubleSlash ∉ ts ∧ r.IsExact := by
  induction h with
  | sum _ _ ih₁ ih₂ | product _ _ ih₁ ih₂ =>
    obtain ⟨hmid, hfirst⟩ := ih₂ hp hrest
    exact ⟨(ih₁ hfirst hmid).1, trivial⟩
  | sumEnd | productEnd => exact ⟨hrest, hp⟩
  | sumStep hop _ _ ih₁ ih₂ | productStep hop _ _ ih₁ ih₂ =>
    obtain ⟨hmid, hboth⟩ := ih₂ hp hrest
    simp only [Rule.IsExact, Phrase.isExact, Bool.and_eq_true, bne_iff_ne, ne_eq] at hboth
    refine ⟨List.not_mem_cons_of_ne_of_not_mem ?_ (ih₁ hboth.2 hmid).1, hboth.1.2⟩
    rintro rfl
    simp_all [additive?, multiplicative?]
  | negative _ ih | positive _ ih => exact ⟨by simpa using (ih hp hrest).1, trivial⟩
  | power _ _ ih₁ ih₂ =>
    simp only [Phrase.isExact, Bool.and_eq_true] at hp
    exact ⟨(ih₁ hp.1.2 (by simpa using (ih₂ hp.2 hrest).1)).1, trivial⟩
  | base _ _ ih => exact ⟨(ih hp hrest).1, trivial⟩
  | name | literal | quoted => exact ⟨by simpa using hrest, trivial⟩
  | paren _ _ ih => exact ⟨by simpa using (ih hp (by simpa using hrest)).1, trivial⟩
  | call _ _ ih => exact ⟨by simpa using (ih hp hrest).1, trivial⟩
  | callParen _ _ _ ih₁ ih₂ => exact ⟨by simpa using (ih₁ rfl (by simpa using (ih₂ hp hrest).1)).1, trivial⟩
  | lastArg _ ih | lastArgComma _ ih =>
    rw [Phrase.isExact, areExact_iff, List.forall_mem_append, List.forall_mem_singleton] at hp
    exact ⟨(ih hp.2 (by simpa using hrest)).1, by simpa [Rule.IsExact] using hp.1⟩
  | nextArg _ _ ih₁ ih₂ =>
    obtain ⟨hmid, hfound⟩ := ih₂ hp hrest
    rw [Rule.IsExact, List.forall_mem_cons] at hfound
    exact ⟨(ih₁ hfound.1 (by simpa using hmid)).1, hfound.2⟩

end Phrase

/-- No tree comes of a rounded quotient. -/
theorem isExact_of_treeOf {text : String} {vars : List Char} {p : Phrase} {t : Tree}
    (hread : treeOf text vars p = .ok t) : p.isExact = true := by
  refine reading_induction (P := fun p _ => p.isExact = true) (fun _ _ => rfl) (fun _ _ _ _ _ => rfl) (fun _ => rfl) ?_
    (fun _ _ ih => ih) (fun _ _ ih => ih) ?_ hread
  · intro f ps ts _ _ hts
    exact Phrase.areExact_iff.mpr fun p hp => (exists_of_forall₂ hts hp).elim fun _ h => h.2
  · intro op o p q t u hop ihp ihq
    have hround : op ≠ .floorDiv := by
      rintro rfl
      simp [Operation.op?] at hop
    simp [Phrase.isExact, hround, ihp, ihq]

/-! ### Marks taken apart and joined -/

theorem divides_of_fuseMarks {ts : List Token} (hdouble : Token.mark .doubleSlash ∉ fuseMarks ts)
    (h : (fuseMarks ts).IsChain (Awaits .slash)) : ts.IsChain Divides := by
  fun_induction fuseMarks ts with
  | case1 ts ih =>
    exact isChain_divides_cons (by simp) (isChain_divides_cons (by simp) (ih (by simpa using hdouble) h.tail))
  | case2 => simp at hdouble
  | case3 ts ih =>
    exact isChain_divides_cons (by simp) (isChain_divides_cons (by simp)
      (isChain_divides_cons (by simp) (ih (by simpa using hdouble) h.tail)))
  | case4 t ts hstars hslashes hdots ih =>
    refine List.isChain_cons.mpr ⟨fun u hu hslash => ⟨?_, ?_⟩, ih (fun hmem => hdouble (List.mem_cons_of_mem t hmem)) h.tail⟩
    · rintro rfl
      obtain ⟨more, rfl⟩ := List.head?_eq_some_iff.mp hu
      exact hslashes more hslash rfl
    · rintro rfl
      obtain ⟨more, rfl⟩ := List.head?_eq_some_iff.mp hu
      rw [fuseMarks_cons (t := .mark .closeParen) rfl] at h
      exact absurd ((List.isChain_cons_cons.mp h).1 hslash) (by simp [Phrase.beginsPhrase])
  | case5 => exact .nil

theorem divides_of_splitMarks {ts : List Token} (h : (ts.flatMap splitMark).IsChain Divides) :
    ts.IsChain Divides ∧ Token.mark .doubleSlash ∉ ts := by
  induction ts with
  | nil => exact ⟨.nil, by simp⟩
  | cons t ts ih =>
    rw [List.flatMap_cons] at h
    obtain ⟨hchain, hdouble⟩ := ih h.right_of_append
    refine ⟨List.isChain_cons.mpr ⟨fun u hu hslash => ?_, hchain⟩, List.not_mem_cons_of_ne_of_not_mem ?_ hdouble⟩
    · subst hslash
      obtain ⟨more, rfl⟩ := List.head?_eq_some_iff.mp hu
      have hjoint := fun v hv => h.rel_head? (y := v) hv rfl
      rw [List.flatMap_cons] at hjoint
      constructor
      · rintro rfl
        exact (hjoint (.mark .slash) rfl).1 rfl
      · rintro rfl
        exact (hjoint (.mark .closeParen) rfl).2 rfl
    · rintro rfl
      exact ((List.isChain_cons_cons.mp h).1 rfl).1 rfl

theorem divides_of_grammarTokens {ts : List Token} (hdouble : Token.mark .doubleSlash ∉ grammarTokens ts)
    (h : (grammarTokens ts).IsChain (Awaits .slash)) : ts.IsChain Divides ∧ Token.mark .doubleSlash ∉ ts :=
  divides_of_splitMarks (divides_of_fuseMarks hdouble h)

/-! ### Parentheses taken back -/

/-- Behind tokens that do not end in a slash other ones may stand. -/
theorem divides_append_of {ts us vs : List Token} (h : (ts ++ us).IsChain Divides) (hvs : vs.IsChain Divides)
    (hjoint : .mark .slash ∈ ts.getLast? → vs.head? = us.head?) : (ts ++ vs).IsChain Divides := by
  refine List.isChain_append.mpr ⟨h.left_of_append, hvs, fun t ht u hu heq => ?_⟩
  subst heq
  exact (List.isChain_append.mp h).2.2 _ ht u (hjoint ht ▸ hu) rfl

/-- The unit ends with a parenthesis if it is more than a token. -/
def Unit.IsClosed (u : Unit) : Prop :=
  ∀ ts, u = .applied ts → ts.getLast? = some (.mark .closeParen)

theorem closed_units (function : Option Token) (ns : List Nested) : ∀ u ∈ units function ns, u.IsClosed := by
  have htokens (ts : List Token) : ∀ u ∈ ts.map Unit.token, u.IsClosed := by
    intro u hu ts hts
    simp [hts] at hu
  induction ns generalizing function with
  | nil => exact htokens _
  | cons n ns ih =>
    rw [units]
    refine List.forall_mem_append.mpr ⟨?_, ih _⟩
    cases n with
    | token t =>
      rw [unitsOf]
      split
      · exact htokens _
      · exact List.forall_mem_append.mpr ⟨htokens _, htokens [t]⟩
    | group content =>
      cases function with
      | none => exact htokens _
      | some f =>
        simp only [unitsOf, List.forall_mem_singleton]
        intro ts hts
        rw [← Unit.applied.inj hts]
        exact List.getLast?_concat (l := f :: .mark .openParen :: applyFunctions content)

/-- Behind a slash nothing is written but a closing parenthesis. -/
theorem settle_slash {debt : Debt} {u next : Unit} (hu : u.IsClosed) (hslash : Token.mark .slash ∈ u.tokens.getLast?) :
    (settle debt u next).1 = [] ∨ (settle debt u next).1 = [.mark .closeParen] := by
  cases u with
  | applied ts => simp [Unit.tokens, hu ts rfl] at hslash
  | token t =>
    obtain rfl : t = .mark .slash := by simpa [Unit.tokens] using hslash
    unfold settle
    grind [Unit.isName, Unit.isMark]

theorem tokens_ne_nil {u : Unit} (hu : u.IsClosed) : u.tokens ≠ [] := by
  cases u with
  | token t => simp [Unit.tokens]
  | applied ts =>
    rw [Unit.tokens, ← List.getLast?_isSome, hu ts rfl]
    rfl

/-- What is written between the units of a level parts no two slashes. -/
theorem divides_of_settleAll {debt : Debt} {us : List Unit} (hus : ∀ u ∈ us, u.IsClosed) {rest : List Token}
    (h : (settleAll debt us ++ rest).IsChain Divides) : (us.flatMap Unit.tokens ++ rest).IsChain Divides := by
  fun_induction settleAll debt us with
  | case1 => exact h
  | case2 debt u =>
    rw [List.append_assoc] at h
    rw [List.flatMap_singleton]
    refine divides_append_of h h.right_of_append.right_of_append fun hslash => ?_
    cases hparens : debt.parens with
    | zero => rfl
    | succ n =>
      rw [hparens, List.replicate_succ] at h
      exact absurd rfl ((List.isChain_append.mp h).2.2 _ hslash _ rfl rfl).2
  | case3 debt u next us added debt' hsettle ih =>
    rw [List.forall_mem_cons] at hus
    rw [List.append_assoc, List.append_assoc] at h
    rw [List.flatMap_cons, List.append_assoc]
    refine divides_append_of h (ih hus.2 h.right_of_append.right_of_append) fun hslash => ?_
    have hadded : added = (settle debt u next).1 := by rw [hsettle]
    rcases hadded ▸ settle_slash hus.1 hslash with rfl | rfl
    · obtain ⟨more, hmore⟩ := exists_settleAll_cons debt' next us
      obtain ⟨t, ts, hnext⟩ := List.exists_cons_of_ne_nil (tokens_ne_nil (hus.2 next List.mem_cons_self))
      rw [hmore, List.flatMap_cons, hnext]
      rfl
    · exact absurd rfl ((List.isChain_append.mp h).2.2 _ hslash _ rfl rfl).2

theorem head?_units_some (f : Token) (ns : List Nested) : ((units (some f) ns).flatMap Unit.tokens).head? = some f := by
  cases ns with
  | nil => rfl
  | cons n ns =>
    cases n with
    | token t =>
      rw [units, unitsOf]
      split <;> rfl
    | group content =>
      rw [units_applied_group]
      rfl

theorem head?_units_none (ns : List Nested) : ((units none ns).flatMap Unit.tokens).head? = (Nested.flatAll ns).head? := by
  cases ns with
  | nil => rfl
  | cons n ns =>
    cases n with
    | token t =>
      rw [units, unitsOf]
      split
      · exact head?_units_some t ns
      · rfl
    | group content =>
      rw [units_group]
      rfl

/-- The parentheses of a level taken back, and those of the levels within it. -/
theorem divides_of_units {function : Option Token} (hfunction : .mark .slash ∉ function) {ns : List Nested}
    {rest : List Token} (h : ((units function ns).flatMap Unit.tokens ++ rest).IsChain Divides) :
    (function.toList ++ (Nested.flatAll ns ++ rest)).IsChain Divides := by
  have hpending {ts : List Token} (hts : ts.IsChain Divides) : (function.toList ++ ts).IsChain Divides := by
    cases function with
    | none => exact hts
    | some f => exact isChain_divides_cons (by simpa [eq_comm] using hfunction) hts
  match ns with
  | [] => cases function <;> exact h
  | .token t :: ns =>
    refine hpending ?_
    rw [units, unitsOf] at h
    split at h
    · rename_i hcallable
      have ht : t ≠ .mark .slash := by
        rintro rfl
        simp [Unit.isFunction] at hcallable
      rw [List.flatMap_append, List.append_assoc] at h
      exact @divides_of_units (some t) (by simpa using ht) ns rest h.right_of_append
    · rw [List.append_assoc, List.flatMap_append, List.append_assoc] at h
      have htoken : ([t] ++ ((units none ns).flatMap Unit.tokens ++ rest)).IsChain Divides := h.right_of_append
      change ([t] ++ (Nested.flatAll ns ++ rest)).IsChain Divides
      refine divides_append_of htoken (@divides_of_units none (by simp) ns rest htoken.tail) fun _ => ?_
      rw [List.head?_append, List.head?_append, head?_units_none]
  | .group content :: ns =>
    refine hpending ?_
    have hgroup : (groupTokens content ++ ((units none ns).flatMap Unit.tokens ++ rest)).IsChain Divides := by
      cases function with
      | none =>
        rw [units_group, List.flatMap_append, List.append_assoc] at h
        simpa [List.flatMap_map, Unit.tokens] using h
      | some f =>
        rw [units_applied_group, List.flatMap_cons, List.append_assoc] at h
        exact h.tail
    rw [groupTokens, List.cons_append, List.append_assoc] at hgroup
    have hinner : (Nested.flatAll content ++
        .mark .closeParen :: ((units none ns).flatMap Unit.tokens ++ rest)).IsChain Divides :=
      @divides_of_units none (by simp) content _ (divides_of_settleAll (closed_units none content) hgroup.tail)
    have hlater := @divides_of_units none (by simp) ns rest hinner.right_of_append.tail
    have hflat : Nested.flatAll (.group content :: ns) ++ rest =
        .mark .openParen :: ((Nested.flatAll content ++ [.mark .closeParen]) ++ (Nested.flatAll ns ++ rest)) := by
      simp [Nested.flatAll, Nested.flat]
    rw [hflat]
    refine isChain_divides_cons (by simp) ?_
    rw [List.append_assoc]
    exact divides_append_of hinner (isChain_divides_cons (by simp) hlater) fun _ => rfl
termination_by sizeOf ns

/-! ### Powers moved back -/

/-- A power stays in one piece. -/
theorem infix_movePowers {state : PowerState} {ts : List Token} (hts : ts ≠ []) : state.power <:+: movePowers state ts := by
  fun_induction movePowers state ts with
  | case1 => exact absurd rfl hts
  | case2 => exact List.nil_infix
  | case3 t power depth | case4 t power depth => exact (List.suffix_cons t power).isInfix
  | case5 state t u ts hpower ih =>
    have hstate : (if (Unit.token t).isFunction then state.startPower else state).power = state.power := by
      split
      · exact state.power_startPower
      · rfl
    exact hstate ▸ List.infix_cons (ih (by simp))
  | case6 => exact List.nil_infix
  | case7 t u ts hpower power depth hends ih => exact (List.prefix_append power [t]).isInfix.trans (ih (by simp))
  | case8 t u ts hpower power depth hends hstar ih => exact ih (by simp)
  | case9 t u ts hpower power depth hends hstar ih => exact (List.prefix_append power [t]).isInfix.trans (ih (by simp))
  | case10 t u ts hpower power depth depth' hzero ih => exact ⟨[t], movePowers .outside (u :: ts), rfl⟩
  | case11 t u ts hpower power depth depth' hzero ih => exact List.infix_cons (ih (by simp))

/-- Where no power is being read, tokens are left where they are for now. -/
theorem head?_movePowers {state : PowerState} (hstate : ∀ power depth, state ≠ .reading power depth) (t : Token)
    (ts : List Token) : (movePowers state (t :: ts)).head? = some t := by
  cases ts with
  | nil => cases state <;> rfl
  | cons u ts =>
    simp only [movePowers]
    split
    · rfl
    · cases state with
      | outside => rfl
      | reading power depth => exact absurd rfl (hstate power depth)
      | pending power depth =>
        simp only
        split_ifs <;> rfl

/-- The parenthesis of the argument that a power waits for is open, or the next one to be opened. -/
def PowerState.IsWithin : PowerState → List Token → Prop
  | .outside, _ => True
  | .reading _ depth, _ => 0 ≤ depth
  | .pending _ depth, ts => 0 < depth ∨ depth = 0 ∧ ts.head? = some (.mark .openParen)

theorem PowerState.isWithin_pending {power ts : List Token} {depth : Int} (hdepth : 0 ≤ depth) :
    (PowerState.pending power depth).IsWithin (.mark .openParen :: ts) :=
  (Int.lt_or_eq_of_le hdepth).imp_right fun heq => ⟨heq.symm, rfl⟩

/-- No two slashes stand side by side in what is kept of a power, nor in what follows. -/
def PowerState.IsDivided : PowerState → List Token → Prop
  | .outside, ts => ts.IsChain Divides
  | .reading power _, ts => (power ++ ts).IsChain Divides
  | .pending power _, ts => power.IsChain Divides ∧ ts.IsChain Divides

theorem isChain_divides_of_not_mem {ts : List Token} (h : Token.mark .slash ∉ ts) : ts.IsChain Divides := by
  induction ts with
  | nil => exact .nil
  | cons t ts ih =>
    rw [List.mem_cons, not_or] at h
    exact isChain_divides_cons (Ne.symm h.1) (ih h.2)

theorem divides_around {power ts : List Token} (hpower : power.IsChain Divides) (hts : ts.IsChain Divides) {t : Token}
    (ht : t ≠ .mark .slash ∧ t ≠ .mark .closeParen) : (power ++ t :: ts).IsChain Divides := by
  refine List.isChain_append.mpr ⟨hpower, isChain_divides_cons ht.1 hts, fun _ _ u hu _ => ?_⟩
  obtain rfl : t = u := by simpa using hu
  exact ht

section Step

variable {t u : Token} {ts : List Token}
  (ih : ∀ {state : PowerState}, state.IsWithin (u :: ts) → (movePowers state (u :: ts)).IsChain Divides → state.IsDivided (u :: ts))
  {state : PowerState} (hstate : state.IsWithin (t :: u :: ts)) (h : (movePowers state (t :: u :: ts)).IsChain Divides)

include ih hstate h

/-- A name with a power sign behind it is written where it stands, and the power may be one that is moved. -/
theorem isDivided_of_name (hname : ((Unit.token t).isName && u == .mark .doubleStar) = true) :
    state.IsDivided (t :: u :: ts) := by
  have ht : t ≠ .mark .slash ∧ t ≠ .mark .closeParen ∧ t ≠ .mark .openParen := by
    refine ⟨?_, ?_, ?_⟩ <;> rintro rfl <;> simp [Unit.isName] at hname
  simp only [movePowers] at h
  rw [if_pos hname] at h
  cases state with
  | outside =>
    refine isChain_divides_cons ht.1 ?_
    split at h
    · exact @ih (.reading [] 0) (Int.le_refl 0) h.tail
    · exact @ih .outside trivial h.tail
  | reading power depth =>
    have hstart : (if (Unit.token t).isFunction then PowerState.startPower (.reading power depth)
        else .reading power depth) = .reading power depth := ite_self _
    rw [hstart] at h
    have hlater := @ih (.reading power depth) hstate h.tail
    exact divides_around hlater.left_of_append hlater.right_of_append ⟨ht.1, ht.2.1⟩
  | pending power depth =>
    have hopen : 0 < depth := hstate.resolve_right fun hparen => ht.2.2 (by simpa using hparen.2)
    split at h
    · have hlater := @ih (.reading power depth) (Int.le_of_lt hopen) h.tail
      exact ⟨hlater.left_of_append, isChain_divides_cons ht.1 hlater.right_of_append⟩
    · have hlater := @ih (.pending power depth) (.inl hopen) h.tail
      exact ⟨hlater.1, isChain_divides_cons ht.1 hlater.2⟩

/-- Any other token is kept for the power that is read, or it is written, and then before the one that followed it. -/
theorem isDivided_of_not_name (hname : ((Unit.token t).isName && u == .mark .doubleStar) = false) :
    state.IsDivided (t :: u :: ts) := by
  have hkept {state : PowerState} (hkeeps : ∀ power depth, state ≠ .reading power depth)
      (h : (t :: movePowers state (u :: ts)).IsChain Divides) (hts : (u :: ts).IsChain Divides) :
      (t :: u :: ts).IsChain Divides :=
    @divides_append_of [t] _ _ h hts fun _ => (head?_movePowers hkeeps u ts).symm
  simp only [movePowers] at h
  rw [if_neg (Bool.eq_false_iff.mp hname)] at h
  cases state with
  | outside => exact hkept (by simp) h (@ih .outside trivial h.tail)
  | reading power depth =>
    simp only at h
    split_ifs at h with hends hstar
    · rw [Bool.and_eq_true, beq_iff_eq, beq_iff_eq] at hends
      obtain ⟨rfl, rfl⟩ := hends
      have hlater := @ih (.pending (power ++ [.mark .closeParen]) depth) (PowerState.isWithin_pending hstate) h
      exact divides_append_of hlater.1 (isChain_divides_cons (by simp) hlater.2) fun _ => rfl
    · rw [Bool.and_eq_true, beq_iff_eq, beq_iff_eq] at hstar
      obtain ⟨rfl, rfl⟩ := hstar
      have hlater := @ih (.pending power depth) (PowerState.isWithin_pending hstate) h
      exact divides_around hlater.1 hlater.2 (by simp)
    · simpa [PowerState.IsDivided] using @ih (.reading (power ++ [t]) depth) hstate h
  | pending power depth =>
    simp only at h
    generalize hinner :
      (if t == .mark .openParen then depth + 1 else if t == .mark .closeParen then depth - 1 else depth) = inner at h
    have hdepth : 0 ≤ inner ∧ (t = .mark .slash → inner ≠ 0) := by
      have hwithin : 0 < depth ∨ depth = 0 ∧ t = .mark .openParen := by simpa [PowerState.IsWithin] using hstate
      grind
    split_ifs at h with hzero
    · have hlater := @ih .outside trivial (@List.IsChain.right_of_append _ _ (t :: power) _ h)
      exact ⟨h.left_of_append.tail, isChain_divides_cons (fun heq => hdepth.2 heq hzero) hlater⟩
    · have hlater := @ih (.pending power inner) (.inl (by omega)) h.tail
      exact ⟨hlater.1, hkept (by simp) h hlater.2⟩

end Step

/-- Moving powers parts no two slashes before the end of the text. -/
theorem divides_of_movePowers {state : PowerState} {front back : List Token} (hback : Token.mark .slash ∉ back)
    (hstate : state.IsWithin (front ++ .finish :: back))
    (h : (movePowers state (front ++ .finish :: back)).IsChain Divides) : state.IsDivided (front ++ .finish :: back) := by
  induction front generalizing state with
  | nil =>
    have hend : back.IsChain Divides := isChain_divides_of_not_mem hback
    have hpower : state.power.IsChain Divides := h.infix (infix_movePowers (by simp))
    cases state with
    | outside => exact isChain_divides_cons (by simp) hend
    | reading power depth => exact divides_around hpower hend (by simp)
    | pending power depth => exact ⟨hpower, isChain_divides_cons (by simp) hend⟩
  | cons t front ih =>
    obtain ⟨u, ts, hrest⟩ : ∃ u ts, front ++ .finish :: back = u :: ts := List.exists_cons_of_ne_nil (by simp)
    rw [List.cons_append, hrest] at h hstate ⊢
    rw [hrest] at ih
    cases hname : (Unit.token t).isName && u == .mark .doubleStar with
    | true => exact isDivided_of_name ih hstate h hname
    | false => exact isDivided_of_not_name ih hstate h hname

/-! ### Applications and products taken back -/

theorem divides_of_filter_finish {ts : List Token} (h : (ts.filter (· != .finish)).IsChain Divides) : ts.IsChain Divides := by
  induction ts with
  | nil => exact .nil
  | cons t ts ih =>
    by_cases ht : t = .finish
    · subst ht
      exact isChain_divides_cons (by simp) (ih (by simpa using h))
    · rw [List.filter_cons_of_pos (by simpa using ht)] at h
      refine List.isChain_cons.mpr ⟨fun u hu heq => ?_, ih h.tail⟩
      obtain ⟨ts, rfl⟩ := List.head?_eq_some_iff.mp hu
      by_cases hu : u = .finish
      · simp [hu]
      · rw [List.filter_cons_of_pos (by simpa using hu)] at h
        exact (List.isChain_cons_cons.mp h).1 heq

/-- Behind the end of the text only parentheses are written. -/
theorem exists_settleAll_finish (debt : Debt) (us : List Unit) :
    ∃ front back, settleAll debt (us ++ [.token .finish]) = front ++ .finish :: back ∧ Token.mark .slash ∉ back := by
  induction us generalizing debt with
  | nil => exact ⟨[], _, rfl, by simp [List.mem_replicate]⟩
  | cons u us ih =>
    obtain ⟨next, rest, hrest⟩ : ∃ next rest, us ++ [.token .finish] = next :: rest := List.exists_cons_of_ne_nil (by simp)
    obtain ⟨front, back, heq, hback⟩ := ih (settle debt u next).2
    refine ⟨u.tokens ++ ((settle debt u next).1 ++ front), back, ?_, hback⟩
    rw [List.cons_append, hrest, settleAll_cons_cons, ← hrest, heq]
    simp

/-- Writing out applications parts no two slashes. -/
theorem divides_of_applications? {ts us : List Token} (happly : applications? ts = some us) (hus : us.IsChain Divides) :
    ts.IsChain Divides := by
  obtain ⟨level, hlevel, rfl⟩ := Option.map_eq_some_iff.mp happly
  have hmoved : (movePowers .outside (applyFunctions level)).IsChain Divides := divides_of_filter_finish hus
  have hsettled : (applyFunctions level ++ []).IsChain Divides := by
    -- the text that is read ends with two marks of its end, so the last unit of its level is one
    obtain ⟨inner, hinner⟩ := Option.isSome_iff_exists.mp
      ((Nested.isSome_ofTokens? [] [] ts).trans (closes_of_applications? happly))
    rw [Nested.ofTokens?_append hinner] at hlevel
    have hunits : units none level = units none (inner ++ [.token .finish]) ++ [.token .finish] := by
      rw [← units_concat rfl]
      simpa [Nested.ofTokens?, eq_comm] using congrArg (Option.map (units none)) hlevel
    obtain ⟨front, back, heq, hback⟩ := exists_settleAll_finish ⟨0, false, false⟩ (units none (inner ++ [.token .finish]))
    rw [applyFunctions, hunits, heq] at hmoved
    rw [applyFunctions, hunits, heq, List.append_nil]
    exact @divides_of_movePowers .outside _ _ hback trivial hmoved
  have hflat : (Nested.flatAll level ++ []).IsChain Divides :=
    @divides_of_units none (by simp) level [] (divides_of_settleAll (closed_units none level) hsettled)
  rw [Nested.flatAll_eq_of_ofTokens? hlevel, List.append_nil] at hflat
  exact hflat.left_of_append

theorem divides_of_insertProducts {afterDot : Bool} {ts : List Token} (h : (insertProducts afterDot ts).IsChain Divides) :
    ts.IsChain Divides := by
  induction ts generalizing afterDot with
  | nil => exact .nil
  | cons t ts ih =>
    rw [insertProducts_cons] at h
    refine List.isChain_cons.mpr ⟨fun u hu heq => ?_, ih h.tail.right_of_append⟩
    have hsign : productSign afterDot t ts = [] := by
      rw [heq]
      rfl
    rw [hsign, List.nil_append] at h
    exact h.rel_head? (by rwa [head?_insertProducts]) heq

/-! ### The slashes of a text -/

theorem isChain_of_spell {vars : List Char} {afterDot : Bool} {ls : List Lexeme}
    (h : (spell vars afterDot ls).IsChain Divides) : ls.IsChain fun l l' => l = .mark .slash → l' ≠ .mark .slash := by
  induction ls generalizing afterDot with
  | nil => exact .nil
  | cons l ls ih =>
    cases l with
    | word name => exact List.isChain_cons.mpr ⟨fun _ _ heq => by simp at heq, ih h.right_of_append⟩
    | number l isImaginary => exact List.isChain_cons.mpr ⟨fun _ _ heq => by simp at heq, ih h.right_of_append⟩
    | mark m =>
      refine List.isChain_cons.mpr ⟨fun l hl hslash hslash' => ?_, ih h.tail⟩
      obtain ⟨ls, rfl⟩ := List.head?_eq_some_iff.mp hl
      obtain rfl := Lexeme.mark.inj hslash
      subst hslash'
      exact ((List.isChain_cons_cons.mp h).1 rfl).1 rfl

/-- A single slash is a lexeme of its own, and no other lexeme but two slashes holds one. -/
theorem slash_of_lexeme? {cs rest : List Char} {l : Lexeme} (h : lexeme? cs = some (l, rest)) (hl : l ≠ .mark .doubleSlash) :
    (l = .mark .slash ∧ cs = '/' :: rest) ∨ ∃ c front, cs = c :: front ++ rest ∧ '/' ∉ c :: front := by
  have hfront {front tail : List Char} (hfront : '/' ∉ front) (hsplit : cs = front ++ tail)
      (hfound : ∃ rest', lexeme? front = some (l, rest') ∧ rest = rest' ++ tail) :
      ∃ c front, cs = c :: front ++ rest ∧ '/' ∉ c :: front := by
    obtain ⟨rest', hfound, rfl⟩ := hfound
    obtain ⟨piece, hpiece, rfl⟩ := shortened_lexeme hfound
    obtain ⟨c, piece, rfl⟩ := List.exists_cons_of_ne_nil hpiece
    exact ⟨c, piece, by rw [hsplit, List.append_assoc], fun hmem => hfront (List.mem_append_left _ hmem)⟩
  by_cases hmem : '/' ∈ cs
  · obtain ⟨front, more, rfl, hnot⟩ := List.eq_append_cons_of_mem hmem
    by_cases hne : front = []
    · subst hne
      left
      cases more with
      | nil =>
        obtain ⟨rfl, rfl⟩ := Prod.mk.inj (Option.some.inj h)
        exact ⟨rfl, rfl⟩
      | cons d more =>
        by_cases hd : d = '/'
        · subst hd
          exact absurd (Prod.mk.inj (Option.some.inj h)).1.symm hl
        · have hsingle : lexeme? ('/' :: d :: more) = some (.mark .slash, d :: more) := by
            have hscan : Literal.scan? ('/' :: d :: more) = none := rfl
            have hmark : mark? ('/' :: d :: more) = some (.slash, d :: more) := by simp [mark?, hd, markOf?]
            simp only [lexeme?, hscan, hmark]
          obtain ⟨rfl, rfl⟩ := Prod.mk.inj (Option.some.inj (hsingle.symm.trans h))
          exact ⟨rfl, rfl⟩
    · have hlast : front.getLast? ≠ some '/' := fun hlast => hnot (List.mem_of_getLast? hlast)
      rw [lexeme?_append_eq (c := '/') (by decide) hne fun _ => hlast] at h
      obtain ⟨⟨l', rest'⟩, hfound, heq⟩ := Option.map_eq_some_iff.mp h
      obtain ⟨rfl, rfl⟩ := Prod.mk.inj heq
      exact .inr (hfront hnot rfl ⟨rest', hfound, rfl⟩)
  · exact .inr (hfront hmem (List.append_nil cs).symm ⟨rest, h, (List.append_nil rest).symm⟩)

theorem isBlank_of_isAllowed {c : Char} (hc : isAllowed c = true) (hblank : ¬(c = ' ' ∨ c = '\t')) : Text.isBlank c = false := by
  rcases Bool.or_eq_true_iff.mp hc with halnum | hsign
  · exact Piece.not_isBlank_of_isAlphanum halnum
  · have hall : ∀ d ∈ [' ', '\t', '+', '-', '*', '/', '^', '(', ')', '.', ','], d = ' ' ∨ d = '\t' ∨ Text.isBlank d = false := by
      decide
    exact ((or_assoc.mpr (hall c (List.contains_iff_mem.mp hsign))).resolve_left hblank)

section Lexed

variable {cs : List Char} {ls : List Lexeme} (hallowed : ∀ c ∈ cs, isAllowed c = true) (h : Lexed cs ls)
  (hdouble : Lexeme.mark .doubleSlash ∉ ls)

include hallowed h hdouble

/-- A text that begins with a slash is cut there, also behind blanks. -/
theorem head?_of_slash (hhead : (Text.withoutBlanks cs).head? = some '/') : ls.head? = some (.mark .slash) := by
  induction h with
  | nil => simp [Text.withoutBlanks] at hhead
  | @blank c cs ls hblank _ ih =>
    have hc : Text.isBlank c = true := by rcases hblank with rfl | rfl <;> rfl
    exact ih (fun d hd => hallowed d (List.mem_cons_of_mem c hd)) hdouble (by simpa [Text.withoutBlanks, hc] using hhead)
  | @lexeme cs rest l ls hlexeme _ _ =>
    rw [List.mem_cons, not_or] at hdouble
    rcases slash_of_lexeme? hlexeme (Ne.symm hdouble.1) with ⟨rfl, -⟩ | ⟨c, front, rfl, hfront⟩
    · rfl
    · have hc : Text.isBlank c = false := by
        refine isBlank_of_isAllowed (hallowed c (by simp)) fun hblank => ?_
        rw [List.cons_append, lexeme?_eq_none_of_blank _ hblank] at hlexeme
        simp at hlexeme
      rw [List.cons_append, Text.withoutBlanks, List.filter_cons_of_pos (by simp [hc]), List.head?_cons,
        Option.some.injEq] at hhead
      exact absurd (hhead ▸ List.mem_cons_self) hfront

/-- Two slashes side by side, also with blanks between them, are cut as two slashes side by side. -/
theorem not_infix_slashes (hchain : ls.IsChain fun l l' => l = .mark .slash → l' ≠ .mark .slash) :
    ¬List.replicate 2 '/' <:+: Text.withoutBlanks cs := by
  induction h with
  | nil => simp [Text.withoutBlanks]
  | @blank c cs ls hblank _ ih =>
    have hc : Text.isBlank c = true := by rcases hblank with rfl | rfl <;> rfl
    have hrest := ih (fun d hd => hallowed d (List.mem_cons_of_mem c hd)) hdouble hchain
    simpa [Text.withoutBlanks, hc] using hrest
  | @lexeme cs rest l ls hlexeme hlexed ih =>
    rw [List.mem_cons, not_or] at hdouble
    rcases slash_of_lexeme? hlexeme (Ne.symm hdouble.1) with ⟨rfl, rfl⟩ | ⟨c, front, rfl, hfront⟩
    · have hlater : ∀ c ∈ rest, isAllowed c = true := fun c hc => hallowed c (List.mem_cons_of_mem _ hc)
      have hslash : Text.withoutBlanks ('/' :: rest) = '/' :: Text.withoutBlanks rest := List.filter_cons_of_pos (by decide)
      rw [hslash, List.infix_cons_iff, not_or]
      refine ⟨fun hprefix => ?_, ih hlater hdouble.2 hchain.tail⟩
      have hhead : (Text.withoutBlanks rest).head? = some '/' := by
        obtain ⟨more, hmore⟩ := (List.cons_prefix_cons.mp hprefix).2
        rw [← hmore]
        rfl
      exact hchain.rel_head? (head?_of_slash hlater hlexed hdouble.2 hhead) rfl rfl
    · have hlater : ∀ d ∈ rest, isAllowed d = true := fun d hd => hallowed d (List.mem_append_right _ hd)
      rw [Text.withoutBlanks, List.filter_append, Text.SameRows.infix_piece]
      · exact ih hlater hdouble.2 hchain.tail
      · intro d hd
        rw [List.mem_filter, Bool.not_eq_true'] at hd
        exact ⟨fun heq => hfront (heq ▸ hd.1), hd.2⟩

end Lexed

theorem sameRows_spellProducts (vars cs : List Char) : Text.SameRows '/' cs (Text.spellProducts vars cs) := by
  induction cs using Text.letters_induction with
  | nil => exact .nil
  | other c cs hc ih =>
    rw [Text.spellProducts_other hc]
    exact .keep c ih
  | run w rest hne hw hrest ih =>
    have hletter {c : Char} (hc : c ∈ w) : Text.Besides '/' c :=
      ⟨fun heq => absurd (hw c hc) (by rw [heq]; decide), Piece.not_isBlank_of_isAlphanum (by simp [Char.isAlphanum, hw c hc])⟩
    have hspelled : ∀ c ∈ Text.spelledRun vars w, Text.Besides '/' c := fun c hc =>
      (Text.mem_spelledRun hc).elim hletter fun hstar => hstar ▸ ⟨by decide, by decide⟩
    rw [Text.spellProducts_run hne hw hrest]
    refine .piece ⟨hne, fun c hc => hletter hc⟩ ⟨?_, hspelled⟩ ih
    obtain ⟨c, w, rfl⟩ := List.exists_cons_of_ne_nil hne
    unfold Text.spelledRun
    split
    · cases w <;> simp [Text.spellRun]
    · simp

/-- No text that is read holds two slashes side by side. -/
theorem not_infix_slashes_of_ofText {text : String} {t : Tree} (hread : Tree.ofText text = .ok t) :
    ¬List.replicate 2 '/' <:+: Text.withoutBlanks (Text.plain text.toList) := by
  obtain ⟨-, hallowed, ls, hls, -, p, ⟨ts, happly, hphrase⟩, htree⟩ := (ofText_eq_ok_iff rfl).mp hread
  generalize Text.plain text.toList = cs at hallowed hls happly htree ⊢
  have hderives := Phrase.derives_of_ofTokens? hphrase (isProper_of_treeOf htree)
  obtain ⟨hchain, hdouble⟩ := divides_of_grammarTokens (hderives.isExact (isExact_of_treeOf htree) (by simp)).1
    (hderives.awaits (by simp) (by simp) .nil)
  have hlexemes : Lexeme.mark .doubleSlash ∉ ls := fun hmem =>
    hdouble ((mem_applications? happly rfl (by simp)).mpr ((mem_insertProducts (by simp)).mpr (mem_spell_of_mark hmem)))
  have hrows := ((sameRows_spellProducts (Text.variableLetters cs) cs).withoutBlanks (by decide)).infix_iff 0
  rw [hrows]
  refine not_infix_slashes (fun c hc => ?_) hls hlexemes
    (isChain_of_spell (divides_of_insertProducts (divides_of_applications? happly hchain)))
  exact (Text.mem_spellProducts hc).elim (hallowed c) fun hstar => hstar ▸ by decide

end AlgebraTutor.Reader
