import Mathlib.Data.List.Chain
import AlgebraTutor.Proofs.Reader.Grammar

/-!
# What a derivation keeps

A derivation neither loses nor invents anything: the words, literals and quoted texts of the tokens are those of the
phrase, and nothing else that is no operator can have been there. It does not look beyond a closing parenthesis.
-/

namespace AlgebraTutor.Reader.Phrase

mutual

/-- The words, literals and quoted texts of a phrase. -/
def leaves : Phrase → List Token
  | .name n => [.word n]
  | .literal l => [.literal l]
  | .quoted s => [.quoted s]
  | .call f args => .word f :: leavesAll args
  | .negative p => leaves p
  | .positive p => leaves p
  | .binary _ left right => leaves left ++ leaves right
  | .other => []

/-- The leaves of several phrases. -/
def leavesAll : List Phrase → List Token
  | [] => []
  | p :: ps => leaves p ++ leavesAll ps

end

theorem mem_leavesAll {ps : List Phrase} {t : Token} : t ∈ leavesAll ps ↔ ∃ p ∈ ps, t ∈ p.leaves := by
  induction ps with
  | nil => simp [leavesAll]
  | cons p ps ih => simp [leavesAll, ih]

mutual

theorem mark_not_mem_leaves (p : Phrase) (m : Mark) : .mark m ∉ p.leaves := by
  match p with
  | .name _ | .literal _ | .quoted _ | .other => simp [leaves]
  | .call _ args => simp [leaves, mark_not_mem_leavesAll args m]
  | .negative p => exact mark_not_mem_leaves p m
  | .positive p => exact mark_not_mem_leaves p m
  | .binary _ left right => simp [leaves, mark_not_mem_leaves left m, mark_not_mem_leaves right m]

theorem mark_not_mem_leavesAll (ps : List Phrase) (m : Mark) : .mark m ∉ leavesAll ps := by
  match ps with
  | [] => simp [leavesAll]
  | p :: ps => simp [leavesAll, mark_not_mem_leaves p m, mark_not_mem_leavesAll ps m]

end

/-- The leaves that a rule starts from. -/
def Rule.leaves : Rule → List Token
  | .sumTail left | .productTail left => left.leaves
  | .args f found => .word f :: leavesAll found
  | _ => []

/-- The token stands for something by itself, or for nothing in an expression. -/
def isContent : Token → Bool
  | .mark .dot | .mark .ellipsis => true
  | .mark _ => false
  | _ => true

theorem additive?_of_isContent {t : Token} (ht : isContent t = true) : additive? t = none := by
  cases t with
  | mark m => cases m <;> first | rfl | simp [isContent] at ht
  | _ => rfl

theorem multiplicative?_of_isContent {t : Token} (ht : isContent t = true) : multiplicative? t = none := by
  cases t with
  | mark m => cases m <;> first | rfl | simp [isContent] at ht
  | _ => rfl

/-- The content of the tokens is the content of the phrase and of what is left. -/
theorem Derives.mem_iff {r : Rule} {ts rest : List Token} {p : Phrase} (h : Derives r ts p rest) {t : Token}
    (ht : isContent t = true) : (t ∈ r.leaves ∨ t ∈ ts) ↔ (t ∈ p.leaves ∨ t ∈ rest) := by
  induction h with
  | sum _ _ ih₁ ih₂ | product _ _ ih₁ ih₂ =>
    simp only [Rule.leaves, List.not_mem_nil, false_or] at ih₁ ih₂ ⊢
    rw [ih₁, ih₂]
  | sumEnd | productEnd => simp [Rule.leaves]
  | @sumStep u ts mid rest op left p q hop _ _ ih₁ ih₂ =>
    have hne : t ≠ u := fun heq => by simp [← heq, additive?_of_isContent ht] at hop
    simp only [Rule.leaves, Phrase.leaves, List.not_mem_nil, false_or, List.mem_append, List.mem_cons, hne] at ih₁ ih₂ ⊢
    rw [ih₁, ← ih₂, or_assoc]
  | @productStep u ts mid rest op left p q hop _ _ ih₁ ih₂ =>
    have hne : t ≠ u := fun heq => by simp [← heq, multiplicative?_of_isContent ht] at hop
    simp only [Rule.leaves, Phrase.leaves, List.not_mem_nil, false_or, List.mem_append, List.mem_cons, hne] at ih₁ ih₂ ⊢
    rw [ih₁, ← ih₂, or_assoc]
  | negative _ ih =>
    have hne : t ≠ .mark .minus := fun heq => by simp [heq, isContent] at ht
    simpa [Rule.leaves, Phrase.leaves, hne] using ih
  | positive _ ih =>
    have hne : t ≠ .mark .plus := fun heq => by simp [heq, isContent] at ht
    simpa [Rule.leaves, Phrase.leaves, hne] using ih
  | power _ _ ih₁ ih₂ =>
    have hne : t ≠ .mark .doubleStar := fun heq => by simp [heq, isContent] at ht
    simp only [Rule.leaves, Phrase.leaves, List.not_mem_nil, false_or, List.mem_append, List.mem_cons, hne] at ih₁ ih₂ ⊢
    rw [ih₁, ih₂, or_assoc]
  | base _ _ ih => simpa [Rule.leaves] using ih
  | name | literal | quoted => simp [Rule.leaves, Phrase.leaves]
  | paren _ _ ih =>
    have hopen : t ≠ .mark .openParen := fun heq => by simp [heq, isContent] at ht
    have hclose : t ≠ .mark .closeParen := fun heq => by simp [heq, isContent] at ht
    simpa [Rule.leaves, hopen, hclose] using ih
  | call _ _ ih =>
    have hopen : t ≠ .mark .openParen := fun heq => by simp [heq, isContent] at ht
    simpa [Rule.leaves, leavesAll, hopen] using ih
  | callParen _ _ _ ih₁ ih₂ =>
    have hopen : t ≠ .mark .openParen := fun heq => by simp [heq, isContent] at ht
    have hclose : t ≠ .mark .closeParen := fun heq => by simp [heq, isContent] at ht
    simp only [Rule.leaves, Phrase.leaves, leavesAll, List.not_mem_nil, false_or, List.mem_cons, or_false, hopen,
      hclose] at ih₁ ih₂ ⊢
    rw [ih₁, ih₂]
  | @lastArg f found ts rest p _ ih | @lastArgComma f found ts rest p _ ih =>
    have hclose : t ≠ .mark .closeParen := fun heq => by simp [heq, isContent] at ht
    have hcomma : t ≠ .mark .comma := fun heq => by simp [heq, isContent] at ht
    have hall : t ∈ leavesAll (found.reverse ++ [p]) ↔ t ∈ leavesAll found ∨ t ∈ p.leaves := by
      simp [mem_leavesAll, or_and_right, exists_or]
    simp only [Rule.leaves, Phrase.leaves, List.not_mem_nil, false_or, List.mem_cons, hclose, hcomma, hall] at ih ⊢
    rw [ih, or_assoc, or_assoc, or_assoc]
  | @nextArg f found ts mid rest p q _ _ ih₁ ih₂ =>
    have hcomma : t ≠ .mark .comma := fun heq => by simp [heq, isContent] at ht
    simp only [Rule.leaves, List.not_mem_nil, false_or, List.mem_cons, hcomma, leavesAll, List.mem_append] at ih₁ ih₂ ⊢
    rw [ih₁, ← ih₂]
    simp only [or_assoc, or_left_comm]

theorem EndsOperand.append {rest more : List Token} (hend : EndsOperand rest) (hmore : EndsOperand more) :
    EndsOperand (rest ++ more) := by
  cases rest with
  | nil => exact hmore
  | cons t rest => exact hend

/-- The rule reads a sum, or the rest of one. -/
def Rule.readsSum : Rule → Bool
  | .sum | .sumTail _ => true
  | _ => false

/-- What goes on with nothing that a derivation read has no part in it. -/
theorem Derives.append_of_ends {r : Rule} {ts rest : List Token} {p : Phrase} (h : Derives r ts p rest) {more : List Token}
    (hends : EndsFactor more) (hfactor : ∀ t ∈ more.head?, multiplicative? t = none)
    (hterm : r.readsSum = true → rest = [] → ∀ t ∈ more.head?, additive? t = none) :
    Derives r (ts ++ more) p (rest ++ more) := by
  induction h with
  | sum _ _ ih₁ ih₂ => exact .sum (ih₁ nofun) (ih₂ hterm)
  | product _ _ ih₁ ih₂ => exact .product (ih₁ nofun) (ih₂ nofun)
  | @sumEnd ts left hend =>
    cases ts with
    | nil => exact .sumEnd (hterm rfl rfl)
    | cons u ts => exact .sumEnd hend
  | @productEnd ts left hend =>
    cases ts with
    | nil => exact .productEnd hfactor
    | cons u ts => exact .productEnd hend
  | sumStep hop _ _ ih₁ ih₂ => exact .sumStep hop (ih₁ nofun) (ih₂ hterm)
  | productStep hop _ _ ih₁ ih₂ => exact .productStep hop (ih₁ nofun) (ih₂ nofun)
  | negative _ ih => exact .negative (ih nofun)
  | positive _ ih => exact .positive (ih nofun)
  | power _ _ ih₁ ih₂ => exact .power (ih₁ nofun) (ih₂ nofun)
  | @base ts rest b _ hend ih =>
    refine .base (ih nofun) ?_
    cases rest with
    | nil => exact hends.2
    | cons u rest => exact hend
  | name hend => exact .name (hend.append hends.1)
  | literal hform hend => exact .literal hform (hend.append hends.1)
  | quoted hend => exact .quoted (hend.append hends.1)
  | paren _ hend ih => exact .paren (ih nofun) (hend.append hends.1)
  | call _ hend ih => exact .call (ih nofun) (hend.append hends.1)
  | callParen _ _ hend ih₁ ih₂ => exact .callParen (ih₁ nofun) (ih₂ nofun) (hend.append hends.1)
  | lastArg _ ih => exact .lastArg (ih nofun)
  | lastArgComma _ ih => exact .lastArgComma (ih nofun)
  | nextArg _ _ ih₁ ih₂ => exact .nextArg (ih₁ nofun) (ih₂ nofun)

/-- What follows a closing parenthesis has no part in a derivation before it. -/
theorem Derives.append {r : Rule} {ts rest : List Token} {p : Phrase} (h : Derives r ts p rest) (more : List Token) :
    Derives r (ts ++ .mark .closeParen :: more) p (rest ++ .mark .closeParen :: more) :=
  h.append_of_ends ⟨⟨by simp, by simp⟩, by simp⟩ (by simp [multiplicative?]) fun _ _ => by simp [additive?]

/-! ### Marks that await a phrase -/

/-- What follows the mark begins a phrase. -/
def Awaits (m : Mark) (t u : Token) : Prop :=
  t = .mark m → beginsPhrase u = true

theorem isChain_awaits_cons {m : Mark} {t : Token} (ht : t ≠ .mark m) {ts : List Token} (hts : ts.IsChain (Awaits m)) :
    (t :: ts).IsChain (Awaits m) :=
  List.isChain_cons.mpr ⟨fun _ _ heq => absurd heq ht, hts⟩

theorem Derives.awaits_cons {r : Rule} {ts rest : List Token} {p : Phrase} (h : Derives r ts p rest) (hr : r.readsWhole = true)
    {m : Mark} (hts : ts.IsChain (Awaits m)) (t : Token) : (t :: ts).IsChain (Awaits m) := by
  obtain ⟨u, more, rfl, hu⟩ := h.begins hr
  exact List.isChain_cons_cons.mpr ⟨fun _ => hu, hts⟩

/-- In what is derived, every mark that neither closes a parenthesis nor parts two arguments awaits a phrase. -/
theorem Derives.awaits {r : Rule} {ts rest : List Token} {p : Phrase} (h : Derives r ts p rest) {m : Mark}
    (hclose : m ≠ .closeParen) (hcomma : m ≠ .comma) (hrest : rest.IsChain (Awaits m)) : ts.IsChain (Awaits m) := by
  have hends {ts : List Token} (hts : ts.IsChain (Awaits m)) : (.mark .closeParen :: ts).IsChain (Awaits m) :=
    isChain_awaits_cons (by simpa using hclose.symm) hts
  induction h with
  | sum _ _ ih₁ ih₂ | product _ _ ih₁ ih₂ => exact ih₁ (ih₂ hrest)
  | sumEnd | productEnd => exact hrest
  | sumStep _ hright _ ih₁ ih₂ | productStep _ hright _ ih₁ ih₂ => exact hright.awaits_cons rfl (ih₁ (ih₂ hrest)) _
  | negative hfactor ih | positive hfactor ih => exact hfactor.awaits_cons rfl (ih hrest) _
  | power _ hexponent ih₁ ih₂ => exact ih₁ (hexponent.awaits_cons rfl (ih₂ hrest) _)
  | base _ _ ih => exact ih hrest
  | name | literal | quoted => exact isChain_awaits_cons (by simp) hrest
  | paren hinner _ ih => exact hinner.awaits_cons rfl (ih (hends hrest)) _
  | call hargs _ ih => exact isChain_awaits_cons (by simp) (hargs.awaits_cons rfl (ih hrest) _)
  | callParen hname hargs _ ih₁ ih₂ =>
    exact hname.awaits_cons rfl (ih₁ (hends (hargs.awaits_cons rfl (ih₂ hrest) _))) _
  | lastArg _ ih => exact ih (hends hrest)
  | lastArgComma _ ih => exact ih (isChain_awaits_cons (by simpa using hcomma.symm) (hends hrest))
  | nextArg _ _ ih₁ ih₂ => exact ih₁ (isChain_awaits_cons (by simpa using hcomma.symm) (ih₂ hrest))

/-- What a parenthesis opens begins a phrase. -/
def Opens (t u : Token) : Prop :=
  t = .mark .openParen → beginsPhrase u = true

/-- In what is derived, every parenthesis opens a phrase. -/
theorem Derives.opens {r : Rule} {ts rest : List Token} {p : Phrase} (h : Derives r ts p rest) (hrest : rest.IsChain Opens) :
    ts.IsChain Opens :=
  h.awaits (m := .openParen) (by simp) (by simp) hrest

end AlgebraTutor.Reader.Phrase
