import AlgebraTutor.Proofs.Reader.Derivation

/-!
# How tightly a phrase binds

Which rules of the grammar read some tokens as a phrase, whatever follows them. What is read as an operand is read as a
factor too, a factor as the beginning of a product, and a product as that of a sum; and in parentheses anything is an
operand.
-/

namespace AlgebraTutor.Reader

namespace Phrase

/-- The tokens are an operand wherever nothing goes on with one. -/
def IsOperand (ts : List Token) (p : Phrase) : Prop :=
  ∀ rest, EndsOperand rest → Derives .operand (ts ++ rest) p rest

/-- The tokens are a factor wherever nothing goes on with one. -/
def IsFactor (ts : List Token) (p : Phrase) : Prop :=
  ∀ rest, EndsFactor rest → Derives .factor (ts ++ rest) p rest

/-- The tokens are the beginning of a product, whatever further factors are. -/
def IsProduct (ts : List Token) (p : Phrase) : Prop :=
  ∀ rest q last, EndsFactor rest → Derives (.productTail p) rest q last → Derives .product (ts ++ rest) q last

/-- The tokens are a term of a sum wherever nothing goes on with one. -/
def IsTerm (ts : List Token) (p : Phrase) : Prop :=
  ∀ rest, EndsFactor rest → (∀ t ∈ rest.head?, multiplicative? t = none) → Derives .product (ts ++ rest) p rest

/-- The tokens are the beginning of a sum, whatever further terms are. -/
def IsSum (ts : List Token) (p : Phrase) : Prop :=
  ∀ rest q last, EndsFactor rest → (∀ t ∈ rest.head?, multiplicative? t = none) → Derives (.sumTail p) rest q last →
    Derives .sum (ts ++ rest) q last

variable {ts us : List Token} {p q : Phrase}

theorem IsOperand.factor (h : IsOperand ts p) : IsFactor ts p :=
  fun rest hends => .base (h rest hends.1) hends.2

theorem IsFactor.product (h : IsFactor ts p) : IsProduct ts p :=
  fun rest _ _ hends htail => .product (h rest hends) htail

theorem IsProduct.term (h : IsProduct ts p) : IsTerm ts p :=
  fun rest hends hfactor => h rest p rest hends (.productEnd hfactor)

theorem IsTerm.sum (h : IsTerm ts p) : IsSum ts p :=
  fun rest _ _ hends hfactor htail => .sum (h rest hends hfactor) htail

theorem IsProduct.sum (h : IsProduct ts p) : IsSum ts p :=
  h.term.sum

/-- What is read as a product to the end is a term. -/
theorem isTerm_of_derives (h : Derives .product ts p []) : IsTerm ts p :=
  fun _ hends hfactor => h.append_of_ends hends hfactor nofun

theorem IsSum.whole (h : IsSum ts p) {rest : List Token} (hends : EndsFactor rest)
    (hfactor : ∀ t ∈ rest.head?, multiplicative? t = none) (hterm : ∀ t ∈ rest.head?, additive? t = none) :
    Derives .sum (ts ++ rest) p rest :=
  h rest p rest hends hfactor (.sumEnd hterm)

theorem IsSum.closed (h : IsSum ts p) (rest : List Token) :
    Derives .sum (ts ++ .mark .closeParen :: rest) p (.mark .closeParen :: rest) :=
  h.whole ⟨⟨by simp, by simp⟩, by simp⟩ (by simp [multiplicative?]) (by simp [additive?])

theorem IsSum.operand (h : IsSum ts p) : IsOperand (.mark .openParen :: (ts ++ [.mark .closeParen])) p := by
  intro rest hends
  rw [List.cons_append, List.append_assoc]
  exact .paren (h.closed rest) hends

theorem IsFactor.negative (h : IsFactor ts p) : IsFactor (.mark .minus :: ts) p.negative :=
  fun rest hends => .negative (h rest hends)

theorem IsOperand.power (h : IsOperand ts p) (h' : IsFactor us q) :
    IsFactor (ts ++ .mark .doubleStar :: us) (.binary .pow p q) := by
  intro rest hends
  rw [List.append_assoc]
  exact .power (h _ ⟨by simp, by simp⟩) (h' rest hends)

theorem IsProduct.append (h : IsProduct ts p) {m : Mark} {op : Operation} (hop : multiplicative? (.mark m) = some op)
    (h' : IsFactor us q) : IsProduct (ts ++ .mark m :: us) (.binary op p q) := by
  intro rest r last hends htail
  rw [List.append_assoc]
  refine h _ r last ⟨⟨?_, ?_⟩, ?_⟩ (.productStep hop (h' rest hends) htail) <;> rintro heq <;>
    obtain rfl := Token.mark.inj (Option.some.inj heq) <;> simp [multiplicative?] at hop

theorem IsSum.append (h : IsSum ts p) {m : Mark} {op : Operation} (hop : additive? (.mark m) = some op)
    (h' : IsTerm us q) : IsSum (ts ++ .mark m :: us) (.binary op p q) := by
  intro rest r last hends hfactor htail
  rw [List.append_assoc]
  have hmark : m = .plus ∨ m = .minus := by cases m <;> simp [additive?] at hop ⊢
  refine h _ r last ?_ ?_ (.sumStep hop (h' rest hends hfactor) htail)
  · rcases hmark with rfl | rfl <;> exact ⟨⟨by simp, by simp⟩, by simp⟩
  · rcases hmark with rfl | rfl <;> simp [multiplicative?]

/-- The tokens are read by the rules that the precedence of a tree allows. -/
def HasLevel (n : Nat) (ts : List Token) (p : Phrase) : Prop :=
  (5 ≤ n → IsOperand ts p) ∧ (3 ≤ n → IsFactor ts p) ∧ (2 ≤ n → IsProduct ts p) ∧ IsSum ts p

theorem IsOperand.level (h : IsOperand ts p) (n : Nat) : HasLevel n ts p :=
  ⟨fun _ => h, fun _ => h.factor, fun _ => h.factor.product, h.factor.product.sum⟩

theorem IsFactor.level (h : IsFactor ts p) {n : Nat} (hn : n < 5) : HasLevel n ts p :=
  ⟨fun h5 => absurd h5 (by omega), fun _ => h, fun _ => h.product, h.product.sum⟩

theorem IsProduct.level (h : IsProduct ts p) {n : Nat} (hn : n < 3) : HasLevel n ts p :=
  ⟨fun h5 => absurd h5 (by omega), fun h3 => absurd h3 (by omega), fun _ => h, h.sum⟩

theorem IsSum.level (h : IsSum ts p) {n : Nat} (hn : n < 2) : HasLevel n ts p :=
  ⟨fun h5 => absurd h5 (by omega), fun h3 => absurd h3 (by omega), fun h2 => absurd h2 (by omega), h⟩

/-! ### Arguments -/

/-- The tokens of the arguments of a call, with commas between them. -/
def argTokens : List (List Token) → List Token
  | [] => []
  | [ts] => ts
  | ts :: us :: rest => ts ++ .mark .comma :: argTokens (us :: rest)

theorem derives_args {f : String} {args : List (List Token × Phrase)} (hne : args ≠ [])
    (hargs : ∀ a ∈ args, IsSum a.1 a.2) (found : List Phrase) (rest : List Token) :
    Derives (.args f found) (argTokens (args.map (·.1)) ++ .mark .closeParen :: rest)
      (.call f (found.reverse ++ args.map (·.2))) rest := by
  induction args generalizing found with
  | nil => exact absurd rfl hne
  | cons a args ih =>
    have ha := hargs a List.mem_cons_self
    cases args with
    | nil => exact .lastArg (ha.closed rest)
    | cons b args =>
      have hlater := ih (by simp) (fun c hc => hargs c (List.mem_cons_of_mem a hc)) (a.2 :: found)
      have hfirst := @IsSum.whole _ _ ha (.mark .comma :: (argTokens ((b :: args).map (·.1)) ++ .mark .closeParen :: rest))
        ⟨⟨by simp, by simp⟩, by simp⟩ (by simp [multiplicative?]) (by simp [additive?])
      have hnext := Derives.nextArg hfirst hlater
      simpa [argTokens] using hnext

end Phrase

end AlgebraTutor.Reader
