import AlgebraTutor.Reader.Phrase

/-!
# The grammar as a relation

`Derives` states the grammar of expressions rule by rule: which tokens a phrase is read from, and which it leaves. The
parsing functions compute it. Everything that is derived is found, with the fuel that the reader has, and everything
that is found is derived, as long as the phrase holds none of the forms that no expression comes of.
-/

namespace AlgebraTutor.Reader

namespace Phrase

/-- What is read: a sum, a product or a factor, the rest of a sum or a product behind its left operand, an operand, or
the arguments of a call behind those already found. -/
inductive Rule
  | sum
  | sumTail (left : Phrase)
  | product
  | productTail (left : Phrase)
  | factor
  | operand
  | args (function : String) (found : List Phrase)

/-- Neither a call nor a dotted name goes on with these tokens. -/
def EndsOperand (ts : List Token) : Prop :=
  ts.head? ≠ some (.mark .openParen) ∧ ts.head? ≠ some (.mark .dot)

/-- Neither a call nor a power goes on with these tokens. -/
def EndsFactor (ts : List Token) : Prop :=
  EndsOperand ts ∧ ts.head? ≠ some (.mark .doubleStar)

/-- From the tokens a phrase is read by the rule, and the rest is left. -/
inductive Derives : Rule → List Token → Phrase → List Token → Prop
  | sum {ts mid rest : List Token} {p q : Phrase} (hfirst : Derives .product ts p mid)
    (hrest : Derives (.sumTail p) mid q rest) : Derives .sum ts q rest
  | sumEnd {ts : List Token} {left : Phrase} (hend : ∀ t ∈ ts.head?, additive? t = none) :
    Derives (.sumTail left) ts left ts
  | sumStep {t : Token} {ts mid rest : List Token} {op : Operation} {left p q : Phrase} (hop : additive? t = some op)
    (hright : Derives .product ts p mid) (hrest : Derives (.sumTail (.binary op left p)) mid q rest) :
    Derives (.sumTail left) (t :: ts) q rest
  | product {ts mid rest : List Token} {p q : Phrase} (hfirst : Derives .factor ts p mid)
    (hrest : Derives (.productTail p) mid q rest) : Derives .product ts q rest
  | productEnd {ts : List Token} {left : Phrase} (hend : ∀ t ∈ ts.head?, multiplicative? t = none) :
    Derives (.productTail left) ts left ts
  | productStep {t : Token} {ts mid rest : List Token} {op : Operation} {left p q : Phrase}
    (hop : multiplicative? t = some op) (hright : Derives .factor ts p mid)
    (hrest : Derives (.productTail (.binary op left p)) mid q rest) : Derives (.productTail left) (t :: ts) q rest
  | negative {ts rest : List Token} {p : Phrase} (hfactor : Derives .factor ts p rest) :
    Derives .factor (.mark .minus :: ts) (.negative p) rest
  | positive {ts rest : List Token} {p : Phrase} (hfactor : Derives .factor ts p rest) :
    Derives .factor (.mark .plus :: ts) (.positive p) rest
  | power {ts mid rest : List Token} {b e : Phrase} (hbase : Derives .operand ts b (.mark .doubleStar :: mid))
    (hexponent : Derives .factor mid e rest) : Derives .factor ts (.binary .pow b e) rest
  | base {ts rest : List Token} {b : Phrase} (hbase : Derives .operand ts b rest)
    (hend : rest.head? ≠ some (.mark .doubleStar)) : Derives .factor ts b rest
  | name {w : String} {rest : List Token} (hend : EndsOperand rest) : Derives .operand (.word w :: rest) (.name w) rest
  | literal {l : Literal} {rest : List Token} (hform : l.isWellFormed = true) (hend : EndsOperand rest) :
    Derives .operand (.literal l :: rest) (.literal l) rest
  | quoted {s : String} {rest : List Token} (hend : EndsOperand rest) :
    Derives .operand (.quoted s :: rest) (.quoted s) rest
  | paren {ts rest : List Token} {p : Phrase} (hinner : Derives .sum ts p (.mark .closeParen :: rest))
    (hend : EndsOperand rest) : Derives .operand (.mark .openParen :: ts) p rest
  | call {w : String} {ts rest : List Token} {p : Phrase} (hargs : Derives (.args w []) ts p rest)
    (hend : EndsOperand rest) : Derives .operand (.word w :: .mark .openParen :: ts) p rest
  | callParen {w : String} {ts mid rest : List Token} {p : Phrase}
    (hname : Derives .sum ts (.name w) (.mark .closeParen :: .mark .openParen :: mid))
    (hargs : Derives (.args w []) mid p rest) (hend : EndsOperand rest) : Derives .operand (.mark .openParen :: ts) p rest
  | lastArg {f : String} {found : List Phrase} {ts rest : List Token} {p : Phrase}
    (harg : Derives .sum ts p (.mark .closeParen :: rest)) :
    Derives (.args f found) ts (.call f (found.reverse ++ [p])) rest
  | lastArgComma {f : String} {found : List Phrase} {ts rest : List Token} {p : Phrase}
    (harg : Derives .sum ts p (.mark .comma :: .mark .closeParen :: rest)) :
    Derives (.args f found) ts (.call f (found.reverse ++ [p])) rest
  | nextArg {f : String} {found : List Phrase} {ts mid rest : List Token} {p q : Phrase}
    (harg : Derives .sum ts p (.mark .comma :: mid)) (hrest : Derives (.args f (p :: found)) mid q rest) :
    Derives (.args f found) ts q rest

/-! ### What a phrase begins with, and what it leaves -/

/-- A phrase can begin with the token. -/
def beginsPhrase : Token → Bool
  | .word _ | .literal _ | .quoted _ => true
  | .mark .minus | .mark .plus | .mark .openParen => true
  | _ => false

/-- The rule reads a phrase of its own, not the rest of one. -/
def Rule.readsWhole : Rule → Bool
  | .sumTail _ | .productTail _ => false
  | _ => true

theorem Derives.begins {r : Rule} {ts rest : List Token} {p : Phrase} (h : Derives r ts p rest)
    (hr : r.readsWhole = true) : ∃ t more, ts = t :: more ∧ beginsPhrase t = true := by
  induction h with
  | sum _ _ ih _ => exact ih rfl
  | product _ _ ih _ => exact ih rfl
  | sumEnd | sumStep | productEnd | productStep => simp [Rule.readsWhole] at hr
  | power _ _ ih _ => exact ih rfl
  | base _ _ ih => exact ih rfl
  | lastArg _ ih => exact ih rfl
  | lastArgComma _ ih => exact ih rfl
  | nextArg _ _ ih _ => exact ih rfl
  | _ => exact ⟨_, _, rfl, rfl⟩

theorem Derives.begins_operand {ts rest : List Token} {p : Phrase} (h : Derives .operand ts p rest) :
    ∃ t more, ts = t :: more ∧ t ≠ .mark .minus ∧ t ≠ .mark .plus := by
  cases h <;> exact ⟨_, _, rfl, by simp, by simp⟩

/-- What is left is the end of what there was, and a rule that reads a whole phrase takes something off. -/
theorem Derives.suffix {r : Rule} {ts rest : List Token} {p : Phrase} (h : Derives r ts p rest) :
    ∃ front, ts = front ++ rest ∧ (r.readsWhole = true → front ≠ []) := by
  induction h with
  | sum _ _ ih₁ ih₂ | product _ _ ih₁ ih₂ =>
    obtain ⟨front, rfl, hfront⟩ := ih₁
    obtain ⟨more, rfl, -⟩ := ih₂
    exact ⟨front ++ more, by simp, fun _ => by simp [hfront rfl]⟩
  | sumEnd | productEnd => exact ⟨[], rfl, by simp [Rule.readsWhole]⟩
  | @sumStep t _ _ _ _ _ _ _ _ _ _ ih₁ ih₂ | @productStep t _ _ _ _ _ _ _ _ _ _ ih₁ ih₂ =>
    obtain ⟨front, rfl, -⟩ := ih₁
    obtain ⟨more, rfl, -⟩ := ih₂
    exact ⟨t :: (front ++ more), by simp, by simp⟩
  | negative _ ih =>
    obtain ⟨front, rfl, -⟩ := ih
    exact ⟨.mark .minus :: front, by simp, by simp⟩
  | positive _ ih =>
    obtain ⟨front, rfl, -⟩ := ih
    exact ⟨.mark .plus :: front, by simp, by simp⟩
  | power _ _ ih₁ ih₂ =>
    obtain ⟨front, rfl, -⟩ := ih₁
    obtain ⟨more, rfl, -⟩ := ih₂
    exact ⟨front ++ .mark .doubleStar :: more, by simp, by simp⟩
  | base _ _ ih => exact ih.imp fun _ h => ⟨h.1, fun _ => h.2 rfl⟩
  | name | literal | quoted => exact ⟨[_], rfl, by simp⟩
  | paren _ _ ih =>
    obtain ⟨front, rfl, -⟩ := ih
    exact ⟨.mark .openParen :: (front ++ [.mark .closeParen]), by simp, by simp⟩
  | @call w _ _ _ _ _ ih =>
    obtain ⟨front, rfl, -⟩ := ih
    exact ⟨.word w :: .mark .openParen :: front, by simp, by simp⟩
  | callParen _ _ _ ih₁ ih₂ =>
    obtain ⟨front, rfl, -⟩ := ih₁
    obtain ⟨more, rfl, -⟩ := ih₂
    exact ⟨.mark .openParen :: (front ++ .mark .closeParen :: .mark .openParen :: more), by simp, by simp⟩
  | lastArg _ ih =>
    obtain ⟨front, rfl, -⟩ := ih
    exact ⟨front ++ [.mark .closeParen], by simp, by simp⟩
  | lastArgComma _ ih =>
    obtain ⟨front, rfl, -⟩ := ih
    exact ⟨front ++ [.mark .comma, .mark .closeParen], by simp, by simp⟩
  | nextArg _ _ ih₁ ih₂ =>
    obtain ⟨front, rfl, -⟩ := ih₁
    obtain ⟨more, rfl, -⟩ := ih₂
    exact ⟨front ++ .mark .comma :: more, by simp, by simp⟩

theorem Derives.length_lt {r : Rule} {ts rest : List Token} {p : Phrase} (h : Derives r ts p rest)
    (hr : r.readsWhole = true) : rest.length < ts.length := by
  obtain ⟨front, rfl, hfront⟩ := h.suffix
  have := List.length_pos_iff.mpr (hfront hr)
  simp only [List.length_append]
  omega

/-! ### Everything that is derived is found -/

/-- The parsing function of a rule; operands and arguments are those of an expression. -/
def Rule.parse : Rule → Nat → List Token → Option (Phrase × List Token)
  | .sum, n, ts => sum? n ts
  | .sumTail left, n, ts => sumTail? n left ts
  | .product, n, ts => product? n ts
  | .productTail left, n, ts => productTail? n left ts
  | .factor, n, ts => factor? n ts
  | .operand, n, ts => (atom? n ts).bind fun found => callTail? n found.1 found.2
  | .args f found, n, ts =>
    (args? n found false ts).bind fun read => if read.2.1 then none else some (.call f read.1, read.2.2)

/-- The fuel that a rule needs beyond eight for each token. -/
def Rule.fuel : Rule → Nat
  | .operand => 4
  | .factor => 5
  | .product => 6
  | .sum => 7
  | .sumTail _ | .productTail _ => 8
  | .args _ _ => 9

theorem exists_fuel {r : Rule} {n m : Nat} (hn : m + r.fuel ≤ n) : ∃ k, n = k + 1 := by
  have hpos : 0 < r.fuel := by cases r <;> exact Nat.succ_pos _
  exact ⟨n - 1, by omega⟩

theorem callTail?_end {n : Nat} {p : Phrase} {ts : List Token} (hend : EndsOperand ts) :
    callTail? (n + 1) p ts = some (p, ts) := by
  unfold callTail?
  obtain ⟨hparen, hdot⟩ := hend
  split <;> simp_all

theorem factor?_operand {n : Nat} {t : Token} {ts : List Token} (hminus : t ≠ .mark .minus) (hplus : t ≠ .mark .plus) :
    factor? (n + 1) (t :: ts) = (Rule.operand.parse n (t :: ts)).bind fun found =>
      match found.2 with
      | .mark .doubleStar :: ts => (factor? n ts).map fun (e, ts) => (.binary .pow found.1 e, ts)
      | ts => some (found.1, ts) := by
  rw [factor?, Rule.parse]
  · exact (Option.bind_assoc _ _ _).symm
  · intro more h
    exact hminus (List.cons.inj h).1
  · intro more h
    exact hplus (List.cons.inj h).1

theorem atom?_paren {n : Nat} {t : Token} {ts : List Token} (ht : beginsPhrase t = true) :
    atom? (n + 2) (.mark .openParen :: t :: ts) = (sum? n (t :: ts)).bind fun found =>
      match found.2 with
      | .mark .closeParen :: ts => some (found.1, ts)
      | .mark .comma :: ts => (listTail? (n + 1) ts).map fun ts => (.other, ts)
      | _ => none := by
  have helement : element? (n + 1) (t :: ts) = (sum? n (t :: ts)).map fun (p, ts) => (p, false, ts) := by
    rw [element?]
    rintro more h
    rw [(List.cons.inj h).1] at ht
    simp [beginsPhrase] at ht
  rw [atom?, helement]
  · cases sum? n (t :: ts) <;> rfl
  · rintro more h
    rw [(List.cons.inj h).1] at ht
    simp [beginsPhrase] at ht

theorem args?_begins {n : Nat} {found : List Phrase} {t : Token} {ts : List Token} (ht : beginsPhrase t = true) :
    args? (n + 1) found false (t :: ts) = (sum? n (t :: ts)).bind fun arg =>
      match arg.2 with
      | .mark .closeParen :: ts => some ((arg.1 :: found).reverse, false, ts)
      | .mark .comma :: .mark .closeParen :: ts => some ((arg.1 :: found).reverse, false, ts)
      | .mark .comma :: ts => args? n (arg.1 :: found) false ts
      | _ => none := by
  cases t with
  | mark m => cases m <;> first | rfl | simp [beginsPhrase] at ht
  | word w => rfl
  | literal l => rfl
  | quoted s => rfl
  | finish => simp [beginsPhrase] at ht

theorem callTail?_call {n : Nat} {w : String} {t : Token} {ts rest : List Token} {p : Phrase}
    (ht : beginsPhrase t = true) (hargs : (Rule.args w []).parse n (t :: ts) = some (p, rest)) :
    callTail? (n + 1) (.name w) (.mark .openParen :: t :: ts) = callTail? n p rest := by
  obtain ⟨⟨args, hasSpread, more⟩, hread, hcall⟩ := Option.bind_eq_some_iff.mp hargs
  have hcalls : callTail? (n + 1) (.name w) (.mark .openParen :: t :: ts) =
      (args? n [] false (t :: ts)).bind fun read => callTail? n (applied (.name w) read.1 read.2.1) read.2.2 := by
    rw [callTail?]
    rintro more h
    rw [(List.cons.inj h).1] at ht
    simp [beginsPhrase] at ht
  cases hasSpread with
  | true => simp at hcall
  | false =>
    obtain ⟨rfl, rfl⟩ : Phrase.call w args = p ∧ more = rest := by simpa using hcall
    rw [hcalls, hread]
    rfl

theorem Derives.parse_eq {r : Rule} {ts rest : List Token} {p : Phrase} (h : Derives r ts p rest) {n : Nat}
    (hn : 8 * ts.length + r.fuel ≤ n) : r.parse n ts = some (p, rest) := by
  induction h generalizing n with
  | @sum ts mid rest p q hfirst hrest ih₁ ih₂ =>
    obtain ⟨n, rfl⟩ := exists_fuel hn
    have hlt := hfirst.length_lt rfl
    simp only [Rule.fuel] at hn ih₁ ih₂
    have h₁ : product? n ts = some (p, mid) := ih₁ (by omega)
    have h₂ : sumTail? n p mid = some (q, rest) := ih₂ (by omega)
    simp [Rule.parse, sum?, h₁, h₂]
  | @sumEnd ts left hend =>
    obtain ⟨n, rfl⟩ := exists_fuel hn
    cases ts with
    | nil => rfl
    | cons t ts => simp [Rule.parse, sumTail?, hend t rfl]
  | @sumStep t ts mid rest op left p q hop hright hrest ih₁ ih₂ =>
    obtain ⟨n, rfl⟩ := exists_fuel hn
    have hlt := hright.length_lt rfl
    simp only [Rule.fuel, List.length_cons] at hn ih₁ ih₂
    have h₁ : product? n ts = some (p, mid) := ih₁ (by omega)
    have h₂ : sumTail? n (.binary op left p) mid = some (q, rest) := ih₂ (by omega)
    simp [Rule.parse, sumTail?, hop, h₁, h₂]
  | @product ts mid rest p q hfirst hrest ih₁ ih₂ =>
    obtain ⟨n, rfl⟩ := exists_fuel hn
    have hlt := hfirst.length_lt rfl
    simp only [Rule.fuel] at hn ih₁ ih₂
    have h₁ : factor? n ts = some (p, mid) := ih₁ (by omega)
    have h₂ : productTail? n p mid = some (q, rest) := ih₂ (by omega)
    simp [Rule.parse, product?, h₁, h₂]
  | @productEnd ts left hend =>
    obtain ⟨n, rfl⟩ := exists_fuel hn
    cases ts with
    | nil => rfl
    | cons t ts => simp [Rule.parse, productTail?, hend t rfl]
  | @productStep t ts mid rest op left p q hop hright hrest ih₁ ih₂ =>
    obtain ⟨n, rfl⟩ := exists_fuel hn
    have hlt := hright.length_lt rfl
    simp only [Rule.fuel, List.length_cons] at hn ih₁ ih₂
    have h₁ : factor? n ts = some (p, mid) := ih₁ (by omega)
    have h₂ : productTail? n (.binary op left p) mid = some (q, rest) := ih₂ (by omega)
    simp [Rule.parse, productTail?, hop, h₁, h₂]
  | @negative ts rest p hfactor ih | @positive ts rest p hfactor ih =>
    obtain ⟨n, rfl⟩ := exists_fuel hn
    simp only [Rule.fuel, List.length_cons] at hn ih
    have h₁ : factor? n ts = some (p, rest) := ih (by omega)
    simp [Rule.parse, factor?, h₁]
  | @power ts mid rest b e hbase hexponent ih₁ ih₂ =>
    obtain ⟨n, rfl⟩ := exists_fuel hn
    have hlt := hbase.length_lt rfl
    simp only [Rule.fuel, List.length_cons] at hn ih₁ ih₂ hlt
    have h₁ := @ih₁ n (by omega)
    have h₂ : factor? n mid = some (e, rest) := ih₂ (by omega)
    obtain ⟨t, more, rfl, hminus, hplus⟩ := hbase.begins_operand
    rw [Rule.parse, factor?_operand hminus hplus, h₁]
    simp [h₂]
  | @base ts rest b hbase hend ih =>
    obtain ⟨n, rfl⟩ := exists_fuel hn
    simp only [Rule.fuel] at hn ih
    have h₁ := @ih n (by omega)
    obtain ⟨t, more, rfl, hminus, hplus⟩ := hbase.begins_operand
    rw [Rule.parse, factor?_operand hminus hplus, h₁, Option.bind_some]
    split
    · rename_i ts heq
      exact absurd (congrArg List.head? heq) hend
    · rfl
  | name hend | quoted hend =>
    obtain ⟨n, rfl⟩ := exists_fuel hn
    simp [Rule.parse, atom?, callTail?_end hend]
  | literal hform hend =>
    obtain ⟨n, rfl⟩ := exists_fuel hn
    simp [Rule.parse, atom?, hform, callTail?_end hend]
  | @paren ts rest p hinner hend ih =>
    obtain ⟨n, rfl⟩ : ∃ k, n = k + 2 := ⟨n - 2, by simp only [Rule.fuel] at hn; omega⟩
    simp only [Rule.fuel, List.length_cons] at hn ih
    have h₁ : sum? n ts = some (p, .mark .closeParen :: rest) := ih (by omega)
    obtain ⟨t, more, rfl, ht⟩ := hinner.begins rfl
    simp [Rule.parse, atom?_paren ht, h₁, callTail?_end hend]
  | @call w ts rest p hargs hend ih =>
    obtain ⟨n, rfl⟩ : ∃ k, n = k + 2 := ⟨n - 2, by simp only [Rule.fuel] at hn; omega⟩
    simp only [Rule.fuel, List.length_cons] at hn ih
    have h₁ := @ih (n + 1) (by omega)
    obtain ⟨t, more, rfl, ht⟩ := hargs.begins rfl
    simp [Rule.parse, atom?, callTail?_call ht h₁, callTail?_end hend]
  | @callParen w ts mid rest p hname hargs hend ih₁ ih₂ =>
    obtain ⟨n, rfl⟩ : ∃ k, n = k + 2 := ⟨n - 2, by simp only [Rule.fuel] at hn; omega⟩
    have hlt := hname.length_lt rfl
    simp only [Rule.fuel, List.length_cons] at hn ih₁ ih₂ hlt
    have h₁ : sum? n ts = some (.name w, .mark .closeParen :: .mark .openParen :: mid) := ih₁ (by omega)
    have h₂ := @ih₂ (n + 1) (by omega)
    obtain ⟨t, more, rfl, ht⟩ := hname.begins rfl
    obtain ⟨u, later, rfl, hu⟩ := hargs.begins rfl
    simp [Rule.parse, atom?_paren ht, h₁, callTail?_call hu h₂, callTail?_end hend]
  | @lastArg f found ts rest p harg ih | @lastArgComma f found ts rest p harg ih =>
    obtain ⟨n, rfl⟩ := exists_fuel hn
    simp only [Rule.fuel] at hn ih
    have h₁ := @ih n (by omega)
    obtain ⟨t, more, rfl, ht⟩ := harg.begins rfl
    rw [Rule.parse] at h₁
    simp [Rule.parse, args?_begins ht, h₁]
  | @nextArg f found ts mid rest p q harg hrest ih₁ ih₂ =>
    obtain ⟨n, rfl⟩ := exists_fuel hn
    have hlt := harg.length_lt rfl
    simp only [Rule.fuel, List.length_cons] at hn ih₁ ih₂ hlt
    have h₁ := @ih₁ n (by omega)
    have h₂ := @ih₂ n (by omega)
    obtain ⟨t, more, rfl, ht⟩ := harg.begins rfl
    obtain ⟨u, later, rfl, hu⟩ := hrest.begins rfl
    simp only [Rule.parse] at h₁ h₂ ⊢
    rw [args?_begins ht, h₁]
    have hclose : u ≠ .mark .closeParen := fun h => by simp [h, beginsPhrase] at hu
    simpa [hclose] using h₂

/-! ### Phrases that an expression can come of -/

mutual

/-- Does a phrase hold no form that no expression comes of, and no call without arguments? -/
def isProper : Phrase → Bool
  | .other => false
  | .call _ args => !args.isEmpty && areProper args
  | .negative p => isProper p
  | .positive p => isProper p
  | .binary _ left right => isProper left && isProper right
  | .name _ | .literal _ | .quoted _ => true

/-- Are all of several phrases proper? -/
def areProper : List Phrase → Bool
  | [] => true
  | p :: ps => isProper p && areProper ps

end

theorem areProper_iff {ps : List Phrase} : areProper ps = true ↔ ∀ p ∈ ps, p.isProper = true := by
  induction ps with
  | nil => simp [areProper]
  | cons p ps ih => simp [areProper, ih]

theorem left_proper_of_sumTail? {n : Nat} {left p : Phrase} {ts rest : List Token}
    (hread : sumTail? n left ts = some (p, rest)) (hp : p.isProper = true) : left.isProper = true := by
  induction n generalizing left ts with
  | zero => simp [sumTail?] at hread
  | succ n ih =>
    cases ts with
    | nil =>
      simp only [sumTail?, Option.some.injEq, Prod.mk.injEq] at hread
      rwa [hread.1]
    | cons t ts =>
      simp only [sumTail?] at hread
      split at hread
      · obtain ⟨⟨right, mid⟩, -, hrest⟩ := Option.bind_eq_some_iff.mp hread
        have := ih hrest
        simp only [isProper, Bool.and_eq_true] at this
        exact this.1
      · simp only [Option.some.injEq, Prod.mk.injEq] at hread
        rwa [hread.1]

theorem left_proper_of_productTail? {n : Nat} {left p : Phrase} {ts rest : List Token}
    (hread : productTail? n left ts = some (p, rest)) (hp : p.isProper = true) : left.isProper = true := by
  induction n generalizing left ts with
  | zero => simp [productTail?] at hread
  | succ n ih =>
    cases ts with
    | nil =>
      simp only [productTail?, Option.some.injEq, Prod.mk.injEq] at hread
      rwa [hread.1]
    | cons t ts =>
      simp only [productTail?] at hread
      split at hread
      · obtain ⟨⟨right, mid⟩, -, hrest⟩ := Option.bind_eq_some_iff.mp hread
        have := ih hrest
        simp only [isProper, Bool.and_eq_true] at this
        exact this.1
      · simp only [Option.some.injEq, Prod.mk.injEq] at hread
        rwa [hread.1]

theorem applied_proper {callee : Phrase} {args : List Phrase} {hasSpread : Bool}
    (hp : (applied callee args hasSpread).isProper = true) :
    ∃ w, callee = .name w ∧ hasSpread = false ∧ args ≠ [] ∧ ∀ q ∈ args, q.isProper = true := by
  unfold applied at hp
  split at hp
  · cases hasSpread with
    | true => simp [isProper] at hp
    | false =>
      simp only [Bool.false_eq_true, if_false, isProper, Bool.and_eq_true, areProper_iff] at hp
      exact ⟨_, rfl, rfl, by simpa using hp.1, hp.2⟩
  · simp [isProper] at hp

theorem applied_ne_name {callee : Phrase} {args : List Phrase} {hasSpread : Bool} {w : String} :
    applied callee args hasSpread ≠ .name w := by
  unfold applied
  split
  · split <;> simp
  · simp

/-- What the calls behind a phrase make of it: nothing, or, of a name, a single call. -/
theorem callTail?_proper {n : Nat} {callee p : Phrase} {ts rest : List Token}
    (hread : callTail? n callee ts = some (p, rest)) (hp : p.isProper = true) :
    (p = callee ∧ rest = ts ∧ EndsOperand ts) ∨
      ∃ k w more args, n = k + 1 ∧ callee = .name w ∧ ts = .mark .openParen :: more ∧ p = .call w args ∧
        args? k [] false more = some (args, false, rest) ∧ EndsOperand rest := by
  induction n generalizing callee ts with
  | zero => simp [callTail?] at hread
  | succ n ih =>
    unfold callTail? at hread
    split at hread
    case h_1 => simp_all
    case h_2 k _ _ hn =>
      obtain rfl := Nat.succ.inj hn
      rcases ih hread with ⟨rfl, -, -⟩ | ⟨k, w, more, args, -, hname, -⟩
      · simp [isProper] at hp
      · simp at hname
    case h_3 => simp at hread
    case h_4 k _ hn =>
      obtain rfl := Nat.succ.inj hn
      rcases ih hread with ⟨rfl, -, -⟩ | ⟨k, w, more, args, -, hname, -⟩
      · obtain ⟨w, -, -, hne, -⟩ := applied_proper hp
        exact absurd rfl hne
      · exact absurd hname applied_ne_name
    case h_5 k _ _ hn =>
      obtain rfl := Nat.succ.inj hn
      obtain ⟨⟨args, hasSpread, more⟩, hargs, hcalls⟩ := Option.bind_eq_some_iff.mp hread
      rcases ih hcalls with ⟨rfl, rfl, hend⟩ | ⟨k, w, more, args, -, hname, -⟩
      · obtain ⟨w, rfl, rfl, -, -⟩ := applied_proper hp
        exact .inr ⟨_, w, _, args, rfl, rfl, rfl, rfl, hargs, hend⟩
      · exact absurd hname applied_ne_name
    case h_6 hdot _ _ _ hparen =>
      simp only [Option.some.injEq, Prod.mk.injEq] at hread
      obtain ⟨rfl, rfl⟩ := hread
      refine .inl ⟨rfl, rfl, fun h => ?_, fun h => ?_⟩
      · obtain ⟨more, rfl⟩ := List.head?_eq_some_iff.mp h
        exact hparen n more rfl rfl
      · obtain ⟨more, rfl⟩ := List.head?_eq_some_iff.mp h
        exact hdot more rfl

/-- What follows an argument: the end of the call, or a comma and the next argument. -/
def afterArg (n : Nat) (found : List Phrase) (hasSpread : Bool) :
    List Token → Option (List Phrase × Bool × List Token)
  | .mark .closeParen :: ts => some (found.reverse, hasSpread, ts)
  | .mark .comma :: .mark .closeParen :: ts => some (found.reverse, hasSpread, ts)
  | .mark .comma :: ts => args? n found hasSpread ts
  | _ => none

/-- An argument is a spread, a starred one, or a plain one. -/
theorem args?_cases {n : Nat} {found args : List Phrase} {hasSpread isSpread : Bool} {ts rest : List Token}
    (hread : args? (n + 1) found hasSpread ts = some (args, isSpread, rest)) :
    (∃ ts', afterArg n found true ts' = some (args, isSpread, rest)) ∨
      (hasSpread = false ∧ ∃ ts', afterArg n (.other :: found) false ts' = some (args, isSpread, rest)) ∨
      (hasSpread = false ∧ ∃ p ts', sum? n ts = some (p, ts') ∧
        afterArg n (p :: found) false ts' = some (args, isSpread, rest)) := by
  rw [args?.eq_def] at hread
  simp only at hread
  split at hread
  · obtain ⟨⟨p, ts'⟩, -, hnext⟩ := Option.bind_eq_some_iff.mp hread
    exact .inl ⟨ts', hnext⟩
  · cases hasSpread with
    | true => simp at hread
    | false =>
      obtain ⟨⟨p, ts'⟩, -, hnext⟩ := Option.bind_eq_some_iff.mp hread
      exact .inr (.inl ⟨rfl, ts', hnext⟩)
  · cases hasSpread with
    | true => simp at hread
    | false =>
      obtain ⟨⟨p, ts'⟩, hsum, hnext⟩ := Option.bind_eq_some_iff.mp hread
      exact .inr (.inr ⟨rfl, p, ts', hsum, hnext⟩)

theorem afterArg_found {n : Nat} {args : List Phrase} {rest : List Token}
    (hargs : ∀ {found hasSpread ts}, args? n found hasSpread ts = some (args, false, rest) →
      hasSpread = false ∧ ∀ q ∈ found, q ∈ args)
    {found : List Phrase} {hasSpread : Bool} {ts : List Token}
    (hread : afterArg n found hasSpread ts = some (args, false, rest)) : hasSpread = false ∧ ∀ q ∈ found, q ∈ args := by
  unfold afterArg at hread
  split at hread
  · simp only [Option.some.injEq, Prod.mk.injEq] at hread
    obtain ⟨rfl, rfl, -⟩ := hread
    exact ⟨rfl, by simp⟩
  · simp only [Option.some.injEq, Prod.mk.injEq] at hread
    obtain ⟨rfl, rfl, -⟩ := hread
    exact ⟨rfl, by simp⟩
  · exact hargs hread
  · simp at hread

/-- The arguments that were found before are among those of the call, and a spread is never forgotten. -/
theorem args?_found {n : Nat} {found args : List Phrase} {hasSpread : Bool} {ts rest : List Token}
    (hread : args? n found hasSpread ts = some (args, false, rest)) : hasSpread = false ∧ ∀ q ∈ found, q ∈ args := by
  induction n generalizing found hasSpread ts with
  | zero => simp [args?] at hread
  | succ n ih =>
    rcases args?_cases hread with ⟨ts', h⟩ | ⟨rfl, ts', h⟩ | ⟨rfl, p, ts', -, h⟩
    · exact absurd (afterArg_found ih h).1 (by simp)
    · exact ⟨rfl, fun q hq => (afterArg_found ih h).2 q (by simp [hq])⟩
    · exact ⟨rfl, fun q hq => (afterArg_found ih h).2 q (by simp [hq])⟩

/-! ### Everything proper that is found is derived -/

/-- What the parsing functions find with some fuel is derived, if it is proper. -/
structure Sound (n : Nat) : Prop where
  sum : ∀ {ts p rest}, sum? n ts = some (p, rest) → p.isProper = true → Derives .sum ts p rest
  sumTail : ∀ {left ts p rest}, sumTail? n left ts = some (p, rest) → p.isProper = true →
    Derives (.sumTail left) ts p rest
  product : ∀ {ts p rest}, product? n ts = some (p, rest) → p.isProper = true → Derives .product ts p rest
  productTail : ∀ {left ts p rest}, productTail? n left ts = some (p, rest) → p.isProper = true →
    Derives (.productTail left) ts p rest
  factor : ∀ {ts p rest}, factor? n ts = some (p, rest) → p.isProper = true → Derives .factor ts p rest
  args : ∀ {found ts args rest}, args? n found false ts = some (args, false, rest) →
    areProper args = true → ∀ f, Derives (.args f found) ts (.call f args) rest

theorem sum?_of_element? {n : Nat} {ts rest : List Token} {p : Phrase}
    (hread : element? n ts = some (p, false, rest)) : ∃ m, n = m + 1 ∧ sum? m ts = some (p, rest) := by
  unfold element? at hread
  split at hread
  · simp at hread
  · obtain ⟨⟨q, more⟩, -, heq⟩ := Option.map_eq_some_iff.mp hread
    simp at heq
  · obtain ⟨⟨q, more⟩, hsum, heq⟩ := Option.map_eq_some_iff.mp hread
    simp only [Prod.mk.injEq, true_and] at heq
    obtain ⟨rfl, rfl⟩ := heq
    exact ⟨_, rfl, hsum⟩

/-- What an operand is before any call: a name, a literal, a quoted text or a phrase in parentheses. -/
theorem atom?_sound {n : Nat} (ih : ∀ m < n, Sound m) {ts mid : List Token} {b : Phrase}
    (hread : atom? n ts = some (b, mid)) (hb : b.isProper = true) :
    (∃ w, ts = .word w :: mid ∧ b = .name w) ∨
      (∃ l, l.isWellFormed = true ∧ ts = .literal l :: mid ∧ b = .literal l) ∨
      (∃ s, ts = .quoted s :: mid ∧ b = .quoted s) ∨
      ∃ inner, ts = .mark .openParen :: inner ∧ Derives .sum inner b (.mark .closeParen :: mid) := by
  unfold atom? at hread
  split at hread
  case h_1 => simp at hread
  case h_2 w ts _ =>
    simp only [Option.some.injEq, Prod.mk.injEq] at hread
    obtain ⟨rfl, rfl⟩ := hread
    exact .inl ⟨w, rfl, rfl⟩
  case h_3 l ts _ =>
    split at hread
    · rename_i hform
      simp only [Option.some.injEq, Prod.mk.injEq] at hread
      obtain ⟨rfl, rfl⟩ := hread
      exact .inr (.inl ⟨l, hform, rfl, rfl⟩)
    · simp at hread
  case h_4 s ts _ =>
    simp only [Option.some.injEq, Prod.mk.injEq] at hread
    obtain ⟨rfl, rfl⟩ := hread
    exact .inr (.inr (.inl ⟨s, rfl, rfl⟩))
  case h_5 =>
    simp only [Option.some.injEq, Prod.mk.injEq] at hread
    simp [← hread.1, isProper] at hb
  case h_6 =>
    simp only [Option.some.injEq, Prod.mk.injEq] at hread
    simp [← hread.1, isProper] at hb
  case h_7 k ts _ =>
    obtain ⟨⟨q, isStarred, more⟩, helement, hclosing⟩ := Option.bind_eq_some_iff.mp hread
    simp only at hclosing
    split at hclosing
    · cases isStarred with
      | true => simp at hclosing
      | false =>
        simp only [Bool.false_eq_true, if_false, Option.some.injEq, Prod.mk.injEq] at hclosing
        obtain ⟨rfl, rfl⟩ := hclosing
        refine .inr (.inr (.inr ⟨ts, rfl, ?_⟩))
        obtain ⟨m, rfl, hsum⟩ := sum?_of_element? helement
        exact (ih m (by omega)).sum hsum hb
    · obtain ⟨_, -, heq⟩ := Option.map_eq_some_iff.mp hclosing
      simp only [Prod.mk.injEq] at heq
      simp [← heq.1, isProper] at hb
    · simp at hclosing
  case h_8 => simp at hread

theorem operand_sound {n : Nat} (ih : ∀ m < n, Sound m) {ts rest : List Token} {p : Phrase}
    (hread : Rule.operand.parse n ts = some (p, rest)) (hp : p.isProper = true) : Derives .operand ts p rest := by
  obtain ⟨⟨b, mid⟩, hatom, hcalls⟩ := Option.bind_eq_some_iff.mp hread
  rcases callTail?_proper hcalls hp with ⟨rfl, rfl, hend⟩ | ⟨k, w, more, args, rfl, hb, hmid, rfl, hargs, hend⟩
  · rcases atom?_sound ih hatom hp with ⟨w, rfl, rfl⟩ | ⟨l, hform, rfl, rfl⟩ | ⟨s, rfl, rfl⟩ | ⟨inner, rfl, hinner⟩
    · exact .name hend
    · exact .literal hform hend
    · exact .quoted hend
    · exact .paren hinner hend
  · dsimp only at hb hmid
    subst hb hmid
    rcases atom?_sound ih hatom rfl with ⟨w', rfl, heq⟩ | ⟨l, -, -, heq⟩ | ⟨s, -, heq⟩ | ⟨inner, rfl, hinner⟩
    · obtain rfl := Phrase.name.inj heq
      simp only [isProper, Bool.and_eq_true] at hp
      exact .call ((ih k (by omega)).args hargs hp.2 w) hend
    · simp at heq
    · simp at heq
    · simp only [isProper, Bool.and_eq_true] at hp
      exact .callParen hinner ((ih k (by omega)).args hargs hp.2 w) hend

theorem args_sound {n : Nat} (ih : Sound n) {found args : List Phrase} {ts rest : List Token}
    (hread : args? (n + 1) found false ts = some (args, false, rest)) (hargs : areProper args = true) (f : String) :
    Derives (.args f found) ts (.call f args) rest := by
  rw [areProper_iff] at hargs
  rcases args?_cases hread with ⟨ts', h⟩ | ⟨-, ts', h⟩ | ⟨-, p, ts', hsum, h⟩
  · exact absurd (afterArg_found args?_found h).1 (by simp)
  · exact absurd (hargs _ ((afterArg_found args?_found h).2 .other (by simp))) (by simp [isProper])
  · have hp := hargs p ((afterArg_found args?_found h).2 p (by simp))
    have hfirst := ih.sum hsum hp
    unfold afterArg at h
    split at h
    · simp only [Option.some.injEq, Prod.mk.injEq, true_and] at h
      obtain ⟨rfl, rfl⟩ := h
      rw [List.reverse_cons]
      exact .lastArg hfirst
    · simp only [Option.some.injEq, Prod.mk.injEq, true_and] at h
      obtain ⟨rfl, rfl⟩ := h
      rw [List.reverse_cons]
      exact .lastArgComma hfirst
    · exact .nextArg hfirst (ih.args h (areProper_iff.mpr hargs) f)
    · simp at h

theorem factor_sound {n : Nat} (ih : ∀ m < n + 1, Sound m) {ts rest : List Token} {p : Phrase}
    (hread : factor? (n + 1) ts = some (p, rest)) (hp : p.isProper = true) : Derives .factor ts p rest := by
  unfold factor? at hread
  split at hread
  case h_1 => simp at hread
  case h_2 k ts hk =>
    obtain rfl := Nat.succ.inj hk
    obtain ⟨⟨q, more⟩, hfactor, heq⟩ := Option.map_eq_some_iff.mp hread
    obtain ⟨rfl, rfl⟩ := Prod.mk.inj heq
    exact .negative ((ih n (by omega)).factor hfactor hp)
  case h_3 k ts hk =>
    obtain rfl := Nat.succ.inj hk
    obtain ⟨⟨q, more⟩, hfactor, heq⟩ := Option.map_eq_some_iff.mp hread
    obtain ⟨rfl, rfl⟩ := Prod.mk.inj heq
    exact .positive ((ih n (by omega)).factor hfactor hp)
  case h_4 ts _ _ k hk _ _ =>
    obtain rfl := Nat.succ.inj hk
    have hoperand {b : Phrase} {mid : List Token} (hb : b.isProper = true)
        (hread : Rule.operand.parse n ts = some (b, mid)) : Derives .operand ts b mid :=
      operand_sound (fun m hm => ih m (by omega)) hread hb
    obtain ⟨⟨b, mid⟩, hatom, hread⟩ := Option.bind_eq_some_iff.mp hread
    obtain ⟨⟨b', mid'⟩, hcalls, hread⟩ := Option.bind_eq_some_iff.mp hread
    have hparse : Rule.operand.parse n ts = some (b', mid') := by simp [Rule.parse, hatom, hcalls]
    simp only at hread
    split at hread
    · obtain ⟨⟨e, more⟩, hexponent, heq⟩ := Option.map_eq_some_iff.mp hread
      obtain ⟨rfl, rfl⟩ := Prod.mk.inj heq
      simp only [isProper, Bool.and_eq_true] at hp
      have hbase := hoperand hp.1 hparse
      exact .power hbase ((ih n (by omega)).factor hexponent hp.2)
    · rename_i hend
      obtain ⟨rfl, rfl⟩ := Prod.mk.inj (Option.some.inj hread)
      refine .base (hoperand hp hparse) fun h => ?_
      obtain ⟨more, rfl⟩ := List.head?_eq_some_iff.mp h
      exact hend more rfl

theorem sound (n : Nat) : Sound n := by
  induction n using Nat.strongRecOn with
  | ind n ih =>
    cases n with
    | zero => constructor <;> intros <;> simp_all [sum?, sumTail?, product?, productTail?, factor?, args?]
    | succ n =>
      have ihn := ih n (by omega)
      constructor
      case sum =>
        intro ts p rest hread hp
        obtain ⟨⟨left, mid⟩, hfirst, hrest⟩ := Option.bind_eq_some_iff.mp hread
        have hproduct := ihn.product hfirst (left_proper_of_sumTail? hrest hp)
        exact .sum hproduct (ihn.sumTail hrest hp)
      case sumTail =>
        intro left ts p rest hread hp
        cases ts with
        | nil =>
          obtain ⟨rfl, rfl⟩ := Prod.mk.inj (Option.some.inj hread)
          exact .sumEnd (by simp)
        | cons t ts =>
          simp only [sumTail?] at hread
          split at hread
          · rename_i op hop
            obtain ⟨⟨right, mid⟩, hright, hrest⟩ := Option.bind_eq_some_iff.mp hread
            have hleft := left_proper_of_sumTail? hrest hp
            simp only [isProper, Bool.and_eq_true] at hleft
            have hproduct := ihn.product hright hleft.2
            exact .sumStep hop hproduct (ihn.sumTail hrest hp)
          · rename_i hop
            obtain ⟨rfl, rfl⟩ := Prod.mk.inj (Option.some.inj hread)
            exact .sumEnd (by simpa using hop)
      case product =>
        intro ts p rest hread hp
        obtain ⟨⟨left, mid⟩, hfirst, hrest⟩ := Option.bind_eq_some_iff.mp hread
        have hfactor := ihn.factor hfirst (left_proper_of_productTail? hrest hp)
        exact .product hfactor (ihn.productTail hrest hp)
      case productTail =>
        intro left ts p rest hread hp
        cases ts with
        | nil =>
          obtain ⟨rfl, rfl⟩ := Prod.mk.inj (Option.some.inj hread)
          exact .productEnd (by simp)
        | cons t ts =>
          simp only [productTail?] at hread
          split at hread
          · rename_i op hop
            obtain ⟨⟨right, mid⟩, hright, hrest⟩ := Option.bind_eq_some_iff.mp hread
            have hleft := left_proper_of_productTail? hrest hp
            simp only [isProper, Bool.and_eq_true] at hleft
            have hfactor := ihn.factor hright hleft.2
            exact .productStep hop hfactor (ihn.productTail hrest hp)
          · rename_i hop
            obtain ⟨rfl, rfl⟩ := Prod.mk.inj (Option.some.inj hread)
            exact .productEnd (by simpa using hop)
      case factor => exact fun hread hp => factor_sound ih hread hp
      case args => exact fun hread hargs f => args_sound ihn hread hargs f

/-! ### The phrase of a text -/

theorem ofTokens?_of_derives {ts : List Token} {p : Phrase} (h : Derives .sum (grammarTokens ts) p []) :
    ofTokens? ts = some p := by
  have hparse : Rule.sum.parse (8 * (grammarTokens ts).length + 8) (grammarTokens ts) = some (p, []) :=
    h.parse_eq (by simp only [Rule.fuel]; omega)
  rw [Rule.parse] at hparse
  simp [ofTokens?, hparse]

theorem derives_of_ofTokens? {ts : List Token} {p : Phrase} (hread : ofTokens? ts = some p) (hp : p.isProper = true) :
    Derives .sum (grammarTokens ts) p [] := by
  obtain ⟨⟨q, rest⟩, hsum, hend⟩ := Option.bind_eq_some_iff.mp hread
  simp only at hend
  split at hend
  · obtain rfl := Option.some.inj hend
    exact (sound _).sum hsum hp
  · split at hend
    · obtain rfl := Option.some.inj hend
      simp [isProper] at hp
    · simp at hend
  · simp at hend

end Phrase

end AlgebraTutor.Reader
