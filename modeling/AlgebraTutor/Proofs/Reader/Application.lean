import Mathlib.Data.List.Chain
import AlgebraTutor.Proofs.Reader.Derivation
import AlgebraTutor.Reader.Application

/-!
# Writing out implicit applications

Closing the parentheses of implicit applications and moving powers behind arguments only adds and moves marks: the
words, literals and quoted texts stay. Where every function has its argument in parentheses already, nothing is written
at all.
-/

namespace AlgebraTutor.Reader

/-! ### Matching parentheses -/

/-- Do the parentheses of the tokens match, `depth` of them being open? -/
def closes : Nat → List Token → Bool
  | depth, [] => depth == 0
  | depth, .mark .openParen :: ts => closes (depth + 1) ts
  | 0, .mark .closeParen :: _ => false
  | depth + 1, .mark .closeParen :: ts => closes depth ts
  | depth, _ :: ts => closes depth ts

theorem closes_cons {depth : Nat} {t : Token} (hopen : t ≠ .mark .openParen) (hclose : t ≠ .mark .closeParen)
    (ts : List Token) : closes depth (t :: ts) = closes depth ts := by
  cases t with
  | mark m => cases m <;> cases depth <;> simp_all [closes]
  | _ => cases depth <;> rfl

theorem closes_append {depth inner : Nat} {ts : List Token} (hts : closes inner ts = true) (rest : List Token) :
    closes (depth + inner) (ts ++ rest) = closes depth rest := by
  induction ts generalizing inner with
  | nil =>
    obtain rfl : inner = 0 := by simpa [closes] using hts
    rfl
  | cons t ts ih =>
    by_cases hopen : t = .mark .openParen
    · subst hopen
      exact @ih (inner + 1) hts
    · by_cases hclose : t = .mark .closeParen
      · subst hclose
        cases inner with
        | zero => simp [closes] at hts
        | succ inner => exact @ih inner hts
      · rw [closes_cons hopen hclose] at hts
        rw [List.cons_append, closes_cons hopen hclose, ih hts]

theorem closes_finish (depth : Nat) (ts : List Token) : closes depth (ts ++ [.finish, .finish]) = closes depth ts := by
  induction ts generalizing depth with
  | nil => rfl
  | cons t ts ih =>
    by_cases hopen : t = .mark .openParen
    · subst hopen
      exact ih (depth + 1)
    · by_cases hclose : t = .mark .closeParen
      · subst hclose
        cases depth with
        | zero => rfl
        | succ depth => exact ih depth
      · rw [List.cons_append, closes_cons hopen hclose, closes_cons hopen hclose, ih]

mutual

/-- The tokens of an element of a level, its own parentheses included. -/
def Nested.flat : Nested → List Token
  | .token t => [t]
  | .group content => .mark .openParen :: flatAll content ++ [.mark .closeParen]

/-- The tokens of the elements of a level. -/
def Nested.flatAll : List Nested → List Token
  | [] => []
  | n :: ns => flat n ++ flatAll ns

end

namespace Nested

theorem flatAll_append (ns ms : List Nested) : flatAll (ns ++ ms) = flatAll ns ++ flatAll ms := by
  induction ns with
  | nil => rfl
  | cons n ns ih => simp [flatAll, ih]

/-- The tokens of what is open around a place: the enclosing levels, innermost first, each in reverse and up to the
parenthesis that opens the next. -/
def flatOuter : List (List Nested) → List Token
  | [] => []
  | enclosing :: outer => flatOuter outer ++ flatAll enclosing.reverse ++ [.mark .openParen]

theorem flatAll_of_ofTokens? {outer : List (List Nested)} {current level : List Nested} {ts : List Token}
    (hread : ofTokens? outer current ts = some level) :
    flatAll level = flatOuter outer ++ flatAll current.reverse ++ ts := by
  fun_induction ofTokens? outer current ts with
  | case1 current outer houter =>
    obtain rfl := Option.some.inj hread
    simp [List.isEmpty_iff.mp houter, flatOuter]
  | case2 => simp at hread
  | case3 outer current ts ih =>
    rw [ih hread]
    simp [flatOuter, flatAll]
  | case4 current ts enclosing outer ih =>
    rw [ih hread]
    simp [flatOuter, flatAll, flat, flatAll_append]
  | case5 => simp at hread
  | case6 outer current t ts hopen hclose ih =>
    rw [ih hread]
    simp [flatAll, flat, flatAll_append]

theorem flatAll_eq_of_ofTokens? {ts : List Token} {level : List Nested} (h : ofTokens? [] [] ts = some level) :
    flatAll level = ts := by
  simpa [flatOuter, flatAll] using flatAll_of_ofTokens? h

theorem isSome_ofTokens? (outer : List (List Nested)) (current : List Nested) (ts : List Token) :
    (ofTokens? outer current ts).isSome = closes outer.length ts := by
  fun_induction ofTokens? outer current ts with
  | case1 current outer houter => simp [List.isEmpty_iff.mp houter, closes]
  | case2 current outer houter => cases outer <;> simp_all [closes]
  | case3 outer current ts ih => simpa [closes] using ih
  | case4 current ts enclosing outer ih => simpa [closes] using ih
  | case5 => simp [closes]
  | case6 outer current t ts hopen hclose ih =>
    rw [ih, closes_cons (fun h => hopen h) fun h => hclose h]

end Nested

/-! ### What is written keeps the content -/

/-- The token is none of those that are written, moved or dropped where functions are applied. -/
def isKept (t : Token) : Bool :=
  t != .mark .openParen && t != .mark .closeParen && t != .mark .star

theorem isKept_of_isContent {t : Token} (ht : Phrase.isContent t = true) : isKept t = true := by
  cases t with
  | mark m => cases m <;> first | rfl | simp [Phrase.isContent] at ht
  | _ => rfl

theorem isKept_of_mem_settle {debt : Debt} {u next : Unit} {t : Token} (ht : t ∈ (settle debt u next).1) :
    isKept t = false := by
  unfold settle at ht
  grind [isKept]

theorem mem_settleAll {debt : Debt} {us : List Unit} {t : Token} (ht : isKept t = true) :
    t ∈ settleAll debt us ↔ t ∈ us.flatMap Unit.tokens := by
  have hparen : t ≠ .mark .closeParen := fun heq => by simp [heq, isKept] at ht
  fun_induction settleAll debt us with
  | case1 debt => simp
  | case2 debt u => simp [hparen]
  | case3 debt u next us added debt' hsettle ih =>
    have hadded : t ∉ added := fun h => by
      have := isKept_of_mem_settle (show t ∈ (settle debt u next).1 by rw [hsettle]; exact h)
      simp [this] at ht
    simp only [List.mem_append, ih, hadded, or_false, List.flatMap_cons]

mutual

theorem mem_unitsOf {function : Option Token} {n : Nested} {t : Token} (ht : isKept t = true) :
    (t ∈ (unitsOf function n).1.flatMap Unit.tokens ∨ t ∈ (unitsOf function n).2.toList) ↔
      (t ∈ function.toList ∨ t ∈ n.flat) := by
  cases n with
  | token u =>
    simp only [unitsOf, Nested.flat]
    split
    · cases function <;> simp [Unit.tokens]
    · cases function <;> simp [Unit.tokens]
  | group content =>
    have hopen : t ≠ .mark .openParen := fun heq => by simp [heq, isKept] at ht
    have hclose : t ≠ .mark .closeParen := fun heq => by simp [heq, isKept] at ht
    have hinner : t ∈ settleAll ⟨0, false, false⟩ (units none content) ↔ t ∈ Nested.flatAll content := by
      rw [mem_settleAll ht, mem_units ht]
      simp
    cases function with
    | none => simp [unitsOf, Nested.flat, List.flatMap_map, Unit.tokens, hopen, hclose, hinner]
    | some f => simp [unitsOf, Nested.flat, Unit.tokens, hopen, hclose, hinner]

theorem mem_units {function : Option Token} {ns : List Nested} {t : Token} (ht : isKept t = true) :
    t ∈ (units function ns).flatMap Unit.tokens ↔ (t ∈ function.toList ∨ t ∈ Nested.flatAll ns) := by
  cases ns with
  | nil => cases function <;> simp [units, Nested.flatAll, Unit.tokens]
  | cons n ns =>
    simp only [units, List.flatMap_append, List.mem_append, mem_units ht, Nested.flatAll]
    rw [← or_assoc, mem_unitsOf ht, or_assoc]

end

/-- The power that a state remembers. -/
def PowerState.power : PowerState → List Token
  | .outside => []
  | .reading power _ => power
  | .pending power _ => power

theorem PowerState.power_startPower (state : PowerState) : state.startPower.power = state.power := by
  cases state <;> rfl

theorem mem_movePowers {state : PowerState} {ts : List Token} (hts : ts ≠ []) {v : Token} (hv : isKept v = true) :
    v ∈ movePowers state ts ↔ v ∈ state.power ∨ v ∈ ts := by
  fun_induction movePowers state ts with
  | case1 => simp at hts
  | case2 t => simp [PowerState.power]
  | case3 t power depth => simp [PowerState.power, or_comm]
  | case4 t power depth => simp [PowerState.power, or_comm]
  | case5 state t u ts hpower ih =>
    have hstate : (if (Unit.token t).isFunction then state.startPower else state).power = state.power := by
      split
      · exact state.power_startPower
      · rfl
    rw [List.mem_cons, ih (by simp), hstate]
    simp only [List.mem_cons, or_left_comm]
  | case6 t u ts hpower ih =>
    rw [List.mem_cons, ih (by simp)]
    simp only [List.mem_cons, or_left_comm]
  | case7 t u ts hpower power depth hends ih =>
    rw [ih (by simp)]
    simp only [PowerState.power, List.mem_append, List.mem_cons, List.not_mem_nil, or_false, or_assoc]
  | case8 t u ts hpower power depth hends hstar ih =>
    have hne : v ≠ t := fun heq => by
      rw [Bool.and_eq_true, beq_iff_eq] at hstar
      simp [heq, hstar.1, isKept] at hv
    rw [ih (by simp)]
    simp [PowerState.power, hne]
  | case9 t u ts hpower power depth hends hstar ih =>
    rw [ih (by simp)]
    simp only [PowerState.power, List.mem_append, List.mem_cons, List.not_mem_nil, or_false, or_assoc]
  | case10 t u ts hpower power depth depth' hzero ih =>
    rw [List.cons_append, List.mem_cons, List.mem_append, ih (by simp)]
    simp only [PowerState.power, List.not_mem_nil, false_or, List.mem_cons]
    rw [or_left_comm]
  | case11 t u ts hpower power depth depth' hzero ih =>
    rw [List.mem_cons, ih (by simp)]
    simp only [PowerState.power, List.mem_cons, or_left_comm]

theorem closes_of_applications? {ts us : List Token} (happly : applications? ts = some us) : closes 0 ts = true := by
  obtain ⟨level, hlevel, -⟩ := Option.map_eq_some_iff.mp happly
  rw [← closes_finish]
  exact (Nested.isSome_ofTokens? [] [] _).symm.trans (by rw [hlevel]; rfl)

/-- The words, literals and quoted texts are those that there were. -/
theorem mem_applications? {ts us : List Token} (happly : applications? ts = some us) {t : Token}
    (ht : isKept t = true) (hfinish : t ≠ .finish) : t ∈ us ↔ t ∈ ts := by
  obtain ⟨level, hlevel, rfl⟩ := Option.map_eq_some_iff.mp happly
  have hflat := Nested.flatAll_eq_of_ofTokens? hlevel
  have hsettled : t ∈ applyFunctions level ↔ t ∈ ts := by
    rw [applyFunctions, mem_settleAll ht, mem_units ht, hflat]
    simp [hfinish]
  by_cases hempty : applyFunctions level = []
  · rw [hempty] at hsettled ⊢
    simp [movePowers, ← hsettled]
  · rw [List.mem_filter, mem_movePowers hempty ht, hsettled]
    simp [PowerState.power, hfinish]

/-! ### Where there is nothing to write

A function that stands before its parenthesis leaves every stage as it found it. -/

/-- A function is followed by the parenthesis of its argument. -/
def Applied (t u : Token) : Prop :=
  Unit.isFunction (.token t) = true → u = .mark .openParen

/-- A function that is a unit of its own is followed by something that ends an argument, and by no power. -/
def Idle (u next : Unit) : Prop :=
  u.isFunction = true → next.isStop = true ∧ next.isMark .doubleStar = false

theorem settle_idle {u next : Unit} (h : Idle u next) (passNext : Bool) :
    settle ⟨0, passNext, false⟩ u next = ([], ⟨0, passNext, false⟩) := by
  unfold settle
  by_cases hfunction : u.isFunction = true
  · obtain ⟨hstop, hpower⟩ := h hfunction
    simp [hstop, hpower]
  · simp [hfunction]

theorem settleAll_idle {us : List Unit} (h : us.IsChain Idle) (passNext : Bool) :
    settleAll ⟨0, passNext, false⟩ us = us.flatMap Unit.tokens := by
  induction us with
  | nil => rfl
  | cons u us ih =>
    cases us with
    | nil => simp [settleAll]
    | cons next us =>
      rw [List.isChain_cons_cons] at h
      simp only [settleAll, settle_idle h.1, ih h.2, List.append_nil, List.flatMap_cons]

theorem isChain_idle_of_applied {ts : List Token} (h : ts.IsChain Applied) : (ts.map Unit.token).IsChain Idle := by
  rw [List.isChain_map]
  refine h.imp fun t u happlied hfunction => ?_
  rw [happlied hfunction]
  exact ⟨rfl, rfl⟩

theorem isChain_idle_cons {u : Unit} {us : List Unit} (hu : u.isFunction = false) (hus : us.IsChain Idle) :
    (u :: us).IsChain Idle :=
  List.isChain_cons.mpr ⟨fun _ _ h => absurd h (by simp [hu]), hus⟩

/-- The units of a level are its tokens in order, a function and its parenthesis together, and nothing is owed between
them. -/
theorem units_applied {function : Option Token} {ns : List Nested} {next : Token}
    (hfunction : ∀ f ∈ function, Unit.isFunction (.token f) = true)
    (h : (function.toList ++ (Nested.flatAll ns ++ [next])).IsChain Applied) :
    (units function ns).flatMap Unit.tokens = function.toList ++ Nested.flatAll ns ∧
      (units function ns).IsChain Idle := by
  match ns with
  | [] => cases function <;> simp [units, Nested.flatAll, Unit.tokens]
  | .token t :: rest =>
    have hflat : Nested.flatAll (.token t :: rest) = t :: Nested.flatAll rest := rfl
    rw [hflat, List.cons_append] at h
    by_cases ht : Unit.isFunction (.token t) = true
    · cases function with
      | some f =>
        -- a function is followed by a parenthesis, not by a function
        have hparen : t = .mark .openParen := (List.isChain_cons_cons.mp h).1 (hfunction f rfl)
        simp [hparen, Unit.isFunction] at ht
      | none =>
        have ih := @units_applied (some t) rest next (by simpa using ht) h
        simpa [units, unitsOf, ht, hflat] using ih
    · have hrest : (Nested.flatAll rest ++ [next]).IsChain Applied := h.right_of_append.tail
      obtain ⟨htokens, hidle⟩ := @units_applied none rest next (by simp) hrest
      have hcons : (.token t :: units none rest).IsChain Idle := isChain_idle_cons (by simpa using ht) hidle
      cases function with
      | none => simpa [units, unitsOf, ht, hflat, htokens, Unit.tokens] using hcons
      | some f =>
        have hparen : t = .mark .openParen := (List.isChain_cons_cons.mp h).1 (hfunction f rfl)
        have hfirst : Idle (.token f) (.token t) := fun _ => hparen ▸ ⟨rfl, rfl⟩
        simpa [units, unitsOf, ht, hflat, htokens, Unit.tokens, List.isChain_cons_cons, hfirst] using hcons
  | .group content :: rest =>
    have hflat : Nested.flatAll (.group content :: rest) =
        .mark .openParen :: Nested.flatAll content ++ [.mark .closeParen] ++ Nested.flatAll rest := rfl
    have hgroup : (Token.mark .openParen :: Nested.flatAll content ++ [Token.mark .closeParen]).IsChain Applied := by
      rw [hflat, List.append_assoc] at h
      exact h.right_of_append.left_of_append
    have hrest : (Nested.flatAll rest ++ [next]).IsChain Applied := by
      rw [hflat, List.append_assoc] at h
      exact h.right_of_append.right_of_append
    obtain ⟨hinner, hinnerIdle⟩ := @units_applied none content (.mark .closeParen) (by simp) hgroup.tail
    obtain ⟨htokens, hidle⟩ := @units_applied none rest next (by simp) hrest
    have hsettled : settleAll ⟨0, false, false⟩ (units none content) = Nested.flatAll content := by
      rw [settleAll_idle hinnerIdle, hinner]
      rfl
    cases function with
    | some f =>
      refine ⟨by simp [units, unitsOf, hsettled, hflat, htokens, Unit.tokens], ?_⟩
      exact isChain_idle_cons rfl hidle
    | none =>
      refine ⟨by simp [units, unitsOf, hsettled, hflat, htokens, List.flatMap_map, Unit.tokens], ?_⟩
      simp only [units, unitsOf, hsettled]
      rw [List.isChain_append]
      refine ⟨isChain_idle_of_applied hgroup, hidle, fun u hu v _ hfunction => ?_⟩
      rw [List.map_append, List.map_singleton, List.getLast?_concat] at hu
      obtain rfl := Option.some.inj hu
      simp [Unit.isFunction] at hfunction
termination_by sizeOf ns

/-- Where no function stands before a power, no power is moved. -/
theorem movePowers_outside {ts : List Token} (h : (ts.map Unit.token).IsChain Idle) : movePowers .outside ts = ts := by
  induction ts with
  | nil => rfl
  | cons t ts ih =>
    cases ts with
    | nil => rfl
    | cons u ts =>
      obtain ⟨hidle, htail⟩ := List.isChain_cons_cons.mp h
      simp only [movePowers]
      split
      · rename_i hpower
        have hfunction : Unit.isFunction (.token t) = false := by
          rw [← Bool.not_eq_true]
          intro hfunction
          have hmark := (hidle hfunction).2
          rw [Unit.isMark] at hmark
          simp [hmark] at hpower
        rw [hfunction, if_neg Bool.false_ne_true, ih htail]
      · rw [ih htail]

theorem finish_not_mem_applications? {ts us : List Token} (happly : applications? ts = some us) : Token.finish ∉ us := by
  obtain ⟨level, -, rfl⟩ := Option.map_eq_some_iff.mp happly
  simp

/-- Tokens in which every function stands before the parenthesis of its argument are left as they are. -/
theorem applications?_of_applied {ts : List Token} (hnest : closes 0 ts = true) (hfinish : Token.finish ∉ ts)
    (h : (ts ++ [Token.finish]).IsChain Applied) : applications? ts = some ts := by
  have hends : closes 0 (ts ++ [.finish, .finish]) = true := by rw [@closes_append 0 0 ts hnest]; rfl
  obtain ⟨level, hlevel⟩ := Option.isSome_iff_exists.mp ((Nested.isSome_ofTokens? [] [] _).trans hends)
  have hflat : Nested.flatAll level = ts ++ [.finish, .finish] := Nested.flatAll_eq_of_ofTokens? hlevel
  have hchain : (ts ++ [Token.finish, .finish]).IsChain Applied := by
    rw [List.isChain_append] at h ⊢
    refine ⟨h.1, ?_, fun t ht u hu => h.2.2 t ht u (by simpa using hu)⟩
    exact List.isChain_pair.mpr fun hfunction => by simp [Unit.isFunction] at hfunction
  have hnext : (Nested.flatAll level ++ [Token.finish]).IsChain Applied := by
    rw [hflat, List.isChain_append]
    refine ⟨hchain, .singleton _, fun t ht u _ hfunction => ?_⟩
    obtain rfl : Token.finish = t := by simpa using ht
    simp [Unit.isFunction] at hfunction
  obtain ⟨htokens, hidle⟩ := @units_applied none level .finish (by simp) hnext
  have happlied : applyFunctions level = ts ++ [.finish, .finish] := by
    rw [applyFunctions, settleAll_idle hidle, htokens, hflat]
    rfl
  have hkeep : ts.filter (· != .finish) = ts := List.filter_eq_self.mpr fun t ht => by
    simpa using fun heq : t = .finish => hfinish (heq ▸ ht)
  rw [applications?, hlevel, Option.map_some, happlied, movePowers_outside (isChain_idle_of_applied hchain), List.filter_append, hkeep]
  simp

end AlgebraTutor.Reader
