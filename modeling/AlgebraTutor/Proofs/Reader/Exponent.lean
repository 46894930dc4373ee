import AlgebraTutor.Proofs.Decimal.Written
import AlgebraTutor.Proofs.Reader.Decimal
import AlgebraTutor.Proofs.Reader.Numeral
import AlgebraTutor.Proofs.Reader.Values

/-!
# Reading a text with an exponent

The letter of an exponent is set off by a product sign before anything is read, so the digits in front of it and those behind
it are two numbers. They are different ones, and no tree with a single number comes of the text.
-/

namespace AlgebraTutor.Reader

open Decimal (HasExponent mantissaChars exponentChars)

/-! ### The text with the letter set off -/

theorem setOffLetters_cons {c : Char} {cs : List Char} (hcs : ∀ d ∈ cs.head?, Text.isLiteralLetter d = false) :
    Text.setOffLetters (c :: cs) = c :: Text.setOffLetters cs := by
  cases cs with
  | nil => rfl
  | cons d cs => simp [Text.setOffLetters, hcs d rfl]

/-- The letter behind the last digit is set off. -/
theorem setOffLetters_concat {cs : List Char} (hcs : ∀ c ∈ cs, c.isAlpha = false) {d : Char} (hd : d.isDigit = true) :
    Text.setOffLetters (cs ++ [d, 'e']) = cs ++ [d, '*', 'e'] := by
  have hletter : Text.isLiteralLetter 'e' = true := rfl
  induction cs with
  | nil => simp [Text.setOffLetters, Text.isDecimalDigit_of_isDigit hd, hletter, Text.startsWithLower]
  | cons c cs ih =>
    obtain ⟨-, hlater⟩ := List.forall_mem_cons.mp hcs
    have hnext : ∀ e ∈ (cs ++ [d, 'e']).head?, Text.isLiteralLetter e = false := fun e he => by
      cases cs with
      | nil =>
        obtain rfl : d = e := by simpa using he
        exact Piece.not_literalLetter_of_isDigit hd
      | cons f cs =>
        obtain rfl : f = e := by simpa using he
        exact not_literalLetter_of_not_isAlpha (hlater f List.mem_cons_self)
    rw [List.cons_append, setOffLetters_cons hnext, ih hlater, List.cons_append]

variable {text ds : List Char} {first sign : Char} {k : ℕ}

section Text

variable (h : HasExponent text first ds sign k)

include h

/-- The digits in front of the exponent end with a digit, and the others are digits and a point. -/
theorem exists_mantissa_digits : ∃ front d, mantissaChars first ds = front ++ [d] ∧ d.isDigit = true ∧
    ∀ c ∈ front, c = '.' ∨ c.isDigit = true := by
  rcases List.eq_nil_or_concat ds with rfl | ⟨es, d, rfl⟩
  · exact ⟨[], first, rfl, h.first_isDigit, by simp⟩
  · refine ⟨first :: '.' :: es, d, ?_, h.isDigit d (by simp), fun c hc => ?_⟩
    · cases es <;> simp [mantissaChars]
    · rcases List.mem_cons.mp hc with rfl | hc
      · exact .inr h.first_isDigit
      · exact (List.mem_cons.mp hc).imp_right fun hc => h.isDigit c (by simp [hc])

theorem isAlpha_of_mem_mantissa {c : Char} (hc : c ∈ mantissaChars first ds) : c.isAlpha = false := by
  obtain ⟨front, d, hmantissa, hd, hfront⟩ := exists_mantissa_digits h
  rw [hmantissa, List.mem_append, List.mem_singleton] at hc
  rcases hc with hc | rfl
  · rcases hfront c hc with rfl | hdigit
    · decide
    · exact isAlpha_of_isDigit hdigit
  · exact isAlpha_of_isDigit hd

omit h in
theorem isDigit_of_mem_exponentChars {c : Char} (hc : c ∈ exponentChars k) : c.isDigit = true := by
  unfold exponentChars at hc
  split at hc
  · rcases List.mem_cons.mp hc with rfl | hc
    · decide
    · exact Text.isDigit_of_mem_digits hc
  · exact Text.isDigit_of_mem_digits hc

theorem mem_text {c : Char} (hc : c ∈ text) : c ∈ ['.', 'e', '-', '+'] ∨ c.isDigit = true := by
  obtain ⟨front, d, hmantissa, hd, hfront⟩ := exists_mantissa_digits h
  rw [h.text_eq, hmantissa] at hc
  have hsign := h.sign
  simp only [List.mem_append, List.mem_cons, List.not_mem_nil, or_false] at hc ⊢
  rcases hc with (hc | rfl) | rfl | rfl | hc
  · exact (hfront c hc).imp_left .inl
  · exact .inr hd
  · simp
  · tauto
  · exact .inr (isDigit_of_mem_exponentChars hc)

theorem plain_exponent {tail : List Char} (htail : IsTail tail) :
    Text.plain (text ++ tail) = mantissaChars first ds ++ '*' :: 'e' :: sign :: (exponentChars k ++ tail) := by
  have hchar {P : Char → Prop} (hsigns : ∀ c ∈ ['.', 'e', '-', '+'], P c) (hdigit : ∀ c, c.isDigit = true → P c) :
      ∀ c ∈ text, P c := fun c hc => (mem_text h hc).elim (hsigns c) (hdigit c)
  have hallowed : ∀ c ∈ text ++ tail, isAllowed c = true := List.forall_mem_append.mpr
    ⟨hchar (by decide) fun c hc => by simp [isAllowed, Char.isAlphanum, hc], fun _ => htail.isAllowed⟩
  have htrim : Text.trimChars (text ++ tail) = text ++ tail := by
    refine htail.trimChars (hchar (by decide) fun c hc => Piece.not_isBlank_of_isAlphanum (by simp [Char.isAlphanum, hc])) ?_
    rw [h.text_eq]
    simp
  have hcapital : 'P' ∉ text := fun hc => hchar (P := (· ≠ 'P')) (by decide) (fun c hc heq => by simp [heq] at hc) 'P' hc rfl
  have hexponent : ∀ c ∈ exponentChars k, c.isAlpha = false := fun c hc =>
    isAlpha_of_isDigit (isDigit_of_mem_exponentChars hc)
  rw [Piece.plain_eq_setOffLetters hallowed htrim (htail.lowerPi hcapital)]
  obtain ⟨front, d, hmantissa, hd, hfront⟩ := exists_mantissa_digits h
  have hsplit : text ++ tail = front ++ [d, 'e'] ++ sign :: (exponentChars k ++ tail) := by
    rw [h.text_eq, hmantissa]
    simp
  have hsign : Text.isSeparator sign = true := by rcases h.sign with rfl | rfl <;> decide
  rw [hsplit, Text.setOffLetters_append hsign,
    setOffLetters_concat (fun c hc => isAlpha_of_mem_mantissa h (by simp [hmantissa, hc])) hd, htail.setOffLetters hexponent,
    hmantissa]
  simp

end Text

/-! ### The two numbers -/

theorem toDigits_digitValue {c : Char} (hc : c.isDigit = true) : Nat.toDigits 10 (Text.digitValue c) = [c] := by
  have hrange := Text.isDigit_iff.mp hc
  have hchar : ∀ k < 10, Nat.digitChar k = Char.ofNat (48 + k) := by decide
  have hzero : '0'.toNat = 48 := rfl
  rw [Nat.toDigits_of_lt_base (Text.digitValue_lt_ten hc), hchar _ (Text.digitValue_lt_ten hc), Text.digitValue, if_pos hc, hzero,
    Nat.add_sub_cancel' hrange.1, Char.ofNat_toNat]

theorem lexeme?_of_scan? {cs rest : List Char} {l : Literal} (h : Literal.scan? cs = some (l, false, rest)) :
    lexeme? cs = some (.number l false, rest) := by
  unfold lexeme?
  rw [h]

theorem value_of_integer {cs : List Char} {q : ℚ} (h : (Literal.integer 10 cs).value? = some q) : q = Text.numeralValue 10 cs := by
  simp only [Literal.value?] at h
  split at h
  · simp at h
  · exact (Option.some.inj h).symm

/-- The digits in front of the exponent are a number between one and ten. -/
theorem exists_mantissa (h : HasExponent text first ds sign k) (w : List Char) :
    ∃ l, lexeme? (mantissaChars first ds ++ '*' :: w) = some (.number l false, '*' :: w) ∧
      ∀ value, l.value? = some value → 1 ≤ value ∧ value < 10 := by
  have hends : Literal.EndsDigits ('*' :: w) := by simp [Literal.EndsDigits, Text.isLiteralLetter]
  have hpos := Text.digitValue_pos h.first_isDigit h.first_ne_zero
  have hless := Text.digitValue_lt_ten h.first_isDigit
  cases hds : ds with
  | nil =>
    have hscan := @Literal.scan?_digits (Text.digitValue first) ('*' :: w) hends rfl
    rw [toDigits_digitValue h.first_isDigit] at hscan
    refine ⟨_, lexeme?_of_scan? hscan, fun value hvalue => ?_⟩
    rw [value_of_integer hvalue, show Text.numeralValue 10 [first] = Text.digitValue first by simp [Text.numeralValue]]
    exact ⟨by exact_mod_cast hpos, by exact_mod_cast hless⟩
  | cons d es =>
    let n : Text.DecimalNumeral := ⟨[first], d :: es, by simp, by simp, by simpa using h.first_isDigit, hds ▸ h.isDigit⟩
    refine ⟨n.literal, lexeme?_of_scan? (@scan?_decimal n _ hends), fun value hvalue => ?_⟩
    have hmore := @Text.le_numeralValue 10 first (d :: es)
    have hall : Text.numeralValue 10 (first :: d :: es) < 10 ^ (first :: d :: es).length := Text.numeralValue_lt fun e he =>
      Text.digitValue_lt_ten ((List.mem_cons.mp he).elim (fun heq => heq ▸ h.first_isDigit) (hds ▸ h.isDigit e))
    have hscale : (0 : ℚ) < 10 ^ (d :: es).length := by positivity
    rw [n.value_eq_of_literal hvalue]
    change 1 ≤ (Text.numeralValue 10 (first :: d :: es) : ℚ) / 10 ^ (d :: es).length ∧ _ / _ < _
    rw [one_le_div hscale, div_lt_iff₀ hscale]
    constructor
    · exact_mod_cast (Nat.le_mul_of_pos_left _ hpos).trans hmore
    · rw [List.length_cons, pow_succ'] at hall
      exact_mod_cast hall

/-- A zero in front of another digit is a number of its own. -/
theorem scan?_zero {c : Char} (hc : c.isDigit = true) (hzero : c ≠ '0') {w : List Char} (hw : Literal.EndsDigits w) :
    Literal.scan? ('0' :: c :: w) = some (.integer 10 ['0'], false, c :: w) := by
  have hspan : Literal.spanDigits Char.isDigit (['0', c] ++ w) = (['0', c], w) :=
    Literal.spanDigits_of_all (by simpa using hc) fun d hd => (hw d hd).1
  have hzeros : Literal.spanDigits (· == '0') (['0'] ++ c :: w) = (['0'], c :: w) :=
    Literal.spanDigits_of_all (by simp) (by simpa using hzero)
  have hbase : Literal.base? c = none := by
    have hne {d : Char} (hd : d.isDigit = false) : (c == d) = false := by
      rw [beq_eq_false_iff_ne]
      rintro rfl
      simp [hc] at hd
    simp [Literal.base?, hne (d := 'x') rfl, hne (d := 'X') rfl, hne (d := 'b') rfl, hne (d := 'B') rfl, hne (d := 'o') rfl,
      hne (d := 'O') rfl]
  have hdecimal : Literal.decimal? (['0', c] ++ w) = none := hw.decimal?_eq_none hspan (by simp)
  have hbased : Literal.based? ('0' :: c :: w) = none := by simp [Literal.based?, hbase]
  simp only [List.cons_append, List.nil_append] at hspan hzeros hdecimal
  simp [Literal.scan?, Literal.allDigits?, hspan, hw.imaginaryMark?_eq_none, hdecimal, hbased, Literal.integer?, hzeros]

/-- The digits of the exponent begin with a zero, which is a number of its own, or they are a number of at least ten. -/
theorem exists_exponent (hk : 5 ≤ k) {tail : List Char} (htail : IsTail tail) :
    ∃ l rest, lexeme? (exponentChars k ++ tail) = some (.number l false, rest) ∧
      ∀ value, l.value? = some value → value = 0 ∨ 10 ≤ value := by
  unfold exponentChars
  split_ifs with hten
  · have hdigit : (Nat.digitChar k).isDigit = true ∧ Nat.digitChar k ≠ '0' :=
      (by decide : ∀ k < 10, 5 ≤ k → (Nat.digitChar k).isDigit = true ∧ Nat.digitChar k ≠ '0') k hten hk
    rw [Nat.toDigits_of_lt_base hten]
    refine ⟨_, _, lexeme?_of_scan? (scan?_zero hdigit.1 hdigit.2 htail.endsDigits), fun value hvalue => .inl ?_⟩
    rw [value_of_integer hvalue]
    rfl
  · refine ⟨_, _, lexeme?_of_scan? (Literal.scan?_digits htail.endsDigits htail.based?), fun value hvalue => .inr ?_⟩
    rw [value_of_integer hvalue, Text.numeralValue_digits]
    exact_mod_cast not_lt.mp hten

theorem Lexed.of_lexeme? {cs rest : List Char} {l : Lexeme} {ls : List Lexeme} (h : Lexed cs ls)
    (hlexeme : lexeme? cs = some (l, rest)) : ∃ ls', ls = l :: ls' ∧ Lexed rest ls' := by
  cases h with
  | nil => simpa using (shortened_lexeme hlexeme).length_lt
  | blank hblank _ => simp [lexeme?_eq_none_of_blank _ hblank] at hlexeme
  | lexeme hfirst hrest =>
    obtain ⟨rfl, rfl⟩ := Prod.mk.inj (Option.some.inj (hfirst.symm.trans hlexeme))
    exact ⟨_, rfl, hrest⟩

/-- No letters of the text are written as a product. -/
theorem spellProducts_exponent (h : HasExponent text first ds sign k) {tail : List Char} (htail : IsTail tail) (vars : List Char) :
    Text.spellProducts vars (mantissaChars first ds ++ '*' :: 'e' :: sign :: (exponentChars k ++ tail)) =
      mantissaChars first ds ++ '*' :: 'e' :: sign :: (exponentChars k ++ tail) := by
  have hsign : sign.isAlpha = false := by rcases h.sign with rfl | rfl <;> decide
  have hletter : Text.spellProducts vars ['e'] = ['e'] := Text.spellProducts_eq_self (by decide) (.inr rfl)
  have hexponent : Text.spellProducts vars (['e'] ++ sign :: (exponentChars k ++ tail)) =
      ['e'] ++ sign :: (exponentChars k ++ tail) := by
    rw [Text.spellProducts_append hsign, hletter,
      htail.spellProducts fun c hc => isAlpha_of_isDigit (isDigit_of_mem_exponentChars hc)]
  rw [Text.spellProducts_outside (fun c hc => isAlpha_of_mem_mantissa h hc), Text.spellProducts_other (by decide)]
  exact congrArg _ (congrArg _ hexponent)

/-- Both numbers are among the lexemes of the text. -/
theorem exists_numbers (h : HasExponent text first ds sign k) {tail : List Char} (htail : IsTail tail) {ls : List Lexeme}
    (hls : LexedAs (Text.plain (text ++ tail)) ls) :
    ∃ l m, .number l false ∈ ls ∧ .number m false ∈ ls ∧ (∀ value, l.value? = some value → 1 ≤ value ∧ value < 10) ∧
      ∀ value, m.value? = some value → value = 0 ∨ 10 ≤ value := by
  obtain ⟨l, hfirst, hl⟩ := exists_mantissa h ('e' :: sign :: (exponentChars k ++ tail))
  obtain ⟨m, rest, hlast, hm⟩ := exists_exponent h.large htail
  rw [plain_exponent h htail, LexedAs, spellProducts_exponent h htail] at hls
  have hstar : lexeme? ('*' :: 'e' :: sign :: (exponentChars k ++ tail)) =
      some (.mark .star, 'e' :: sign :: (exponentChars k ++ tail)) := rfl
  have hletter : lexeme? ('e' :: sign :: (exponentChars k ++ tail)) = some (.word ['e'], sign :: (exponentChars k ++ tail)) := by
    have hsign : sign.isAlphanum = false := by rcases h.sign with rfl | rfl <;> decide
    simp [lexeme?, Literal.scan?_letter (c := 'e') (by decide), mark?_letter (c := 'e') (by decide), hsign,
      show 'e'.isAlpha = true by decide, show 'e'.isAlphanum = true by decide]
  obtain ⟨ls₁, rfl, h₁⟩ := hls.of_lexeme? hfirst
  obtain ⟨ls₂, rfl, h₂⟩ := h₁.of_lexeme? hstar
  obtain ⟨ls₃, rfl, h₃⟩ := h₂.of_lexeme? hletter
  obtain ⟨x, ls₄, rfl, h₄⟩ : ∃ x ls', ls₃ = x :: ls' ∧ Lexed (exponentChars k ++ tail) ls' := by
    rcases h.sign with rfl | rfl
    · exact ⟨_, h₃.of_lexeme? rfl⟩
    · exact ⟨_, h₃.of_lexeme? rfl⟩
  obtain ⟨ls₅, rfl, -⟩ := h₄.of_lexeme? hlast
  exact ⟨l, m, by simp, by simp, hl, hm⟩

/-- A tree with a single number, up to its sign, is not read from a text with an exponent. -/
theorem ofText_exponent_ne (h : HasExponent text first ds sign k) {tail : List Char} (htail : IsTail tail) {t : Tree} {q : ℚ}
    (hq : 0 < q) (hsingle : ∀ value, t.HasNumber value → value = q ∨ value = -q) :
    Tree.ofText (String.ofList (text ++ tail)) ≠ .ok t := by
  intro hread
  obtain ⟨-, -, ls, hls, -⟩ := (ofText_eq_ok_iff rfl).mp hread
  rw [String.toList_ofList] at hls
  obtain ⟨l, m, hl, hm, hfirst, hlast⟩ := exists_numbers h htail hls
  obtain ⟨a, ha, hhas⟩ := hasNumber_of_ofText hread (by rwa [String.toList_ofList]) hl
  obtain ⟨b, hb, hhas'⟩ := hasNumber_of_ofText hread (by rwa [String.toList_ofList]) hm
  obtain ⟨hone, hten⟩ := hfirst a ha
  have hlarge := hlast b hb
  rcases hsingle a hhas with rfl | rfl
  · rcases hsingle b hhas' with rfl | rfl <;> rcases hlarge with hzero | hlarge <;> linarith
  · linarith

end AlgebraTutor.Reader
