import AlgebraTutor.Proofs.Reader.Piece

/-!
# Cutting a written tree

The text of pieces is cut into the lexemes of the pieces. A number is a literal in base ten, also where a name follows
it, since no name goes on with a literal; and a sign stands for itself, since none is written twice in a row.
-/

namespace AlgebraTutor.Reader

namespace Literal

theorem spanDigits_of_all {isDigit : Char → Bool} {ds w : List Char} (hds : ∀ c ∈ ds, isDigit c = true)
    (hw : ∀ c ∈ w.head?, isDigit c = false) : spanDigits isDigit (ds ++ w) = (ds, w) := by
  have hrest : w.takeWhile isDigit = [] ∧ w.dropWhile isDigit = w := by
    cases w with
    | nil => exact ⟨rfl, rfl⟩
    | cons c w => simp [hw c rfl]
  rw [spanDigits, List.takeWhile_append_of_pos hds, List.dropWhile_append_of_pos hds, hrest.1, hrest.2, List.append_nil]

/-- What may stand behind the digits of a decimal integer: nothing that goes on with a literal. -/
def EndsDigits (w : List Char) : Prop :=
  ∀ c ∈ w.head?, c.isDigit = false ∧ c ≠ '.' ∧ Text.isLiteralLetter c = false

theorem EndsDigits.exponent?_eq_none {w : List Char} (hw : EndsDigits w) : exponent? w = none := by
  cases w with
  | nil => rfl
  | cons c w =>
    have hletter := (hw c rfl).2.2
    have hc : (c == 'e' || c == 'E') = false := by
      simp only [Text.isLiteralLetter, Bool.or_eq_false_iff] at hletter ⊢
      exact hletter.1.1
    simp [exponent?, hc]

theorem EndsDigits.imaginaryMark?_eq_none {w : List Char} (hw : EndsDigits w) (l : Literal) :
    imaginaryMark? (l, w) = none := by
  cases w with
  | nil => rfl
  | cons c w =>
    have hletter := (hw c rfl).2.2
    have hc : (c == 'j' || c == 'J') = false := by
      simp only [Text.isLiteralLetter, Bool.or_eq_false_iff] at hletter ⊢
      exact ⟨hletter.1.2, hletter.2⟩
    simp [imaginaryMark?, hc]

theorem EndsDigits.decimal?_eq_none {w cs ds : List Char} (hw : EndsDigits w) (hspan : spanDigits Char.isDigit cs = (ds, w))
    (hds : ds ≠ []) : decimal? cs = none := by
  rw [decimal?, hspan]
  simp only
  split
  · exact absurd rfl (hw '.' rfl).2.1
  · simp [hds, hw.exponent?_eq_none]

theorem integer?_digits {n : Nat} {w : List Char} (hw : EndsDigits w) :
    integer? (Nat.toDigits 10 n ++ w) = some (.integer 10 (Nat.toDigits 10 n), w) := by
  have hspan : spanDigits Char.isDigit (Nat.toDigits 10 n ++ w) = (Nat.toDigits 10 n, w) :=
    spanDigits_of_all (fun c hc => Text.isDigit_of_mem_digits hc) fun c hc => (hw c hc).1
  by_cases hn : n = 0
  · subst hn
    have hzeros : spanDigits (· == '0') (['0'] ++ w) = (['0'], w) := by
      refine spanDigits_of_all (by simp) fun c hc => ?_
      have hdigit := (hw c hc).1
      simp only [beq_eq_false_iff_ne]
      rintro rfl
      simp at hdigit
    rw [Nat.toDigits_zero, List.singleton_append] at *
    rw [integer?, hzeros]
  · rw [integer?, hspan]
    · simp [Nat.toDigits_ne_nil]
    · intro tail hcs
      refine Text.head?_digits hn ?_
      have hhead := congrArg List.head? hcs
      rwa [List.head?_append, List.head?_eq_some_head Nat.toDigits_ne_nil, Option.some_or,
        ← List.head?_eq_some_head] at hhead

theorem based?_digits {n : Nat} {w : List Char} (hbase : based? ('0' :: w) = none) :
    based? (Nat.toDigits 10 n ++ w) = none := by
  by_cases hn : n = 0
  · subst hn
    exact hbase
  · unfold based?
    split
    · rename_i c cs hcs
      refine absurd ?_ (Text.head?_digits hn)
      have hhead := congrArg List.head? hcs
      rwa [List.head?_append, List.head?_eq_some_head Nat.toDigits_ne_nil, Option.some_or,
        ← List.head?_eq_some_head] at hhead
    · rfl

theorem scan?_digits {n : Nat} {w : List Char} (hw : EndsDigits w) (hbase : based? ('0' :: w) = none) :
    scan? (Nat.toDigits 10 n ++ w) = some (.integer 10 (Nat.toDigits 10 n), false, w) := by
  have hspan : spanDigits Char.isDigit (Nat.toDigits 10 n ++ w) = (Nat.toDigits 10 n, w) :=
    spanDigits_of_all (fun c hc => Text.isDigit_of_mem_digits hc) fun c hc => (hw c hc).1
  simp [scan?, allDigits?, hspan, Nat.toDigits_ne_nil, hw.imaginaryMark?_eq_none,
    hw.decimal?_eq_none hspan Nat.toDigits_ne_nil, based?_digits hbase, integer?_digits hw]

theorem scan?_letter {c : Char} (hc : c.isAlpha = true) (cs : List Char) : scan? (c :: cs) = none := by
  have hdigit := isDigit_of_isAlpha hc
  have hne {d : Char} (hd : d.isAlpha = false) : c ≠ d := by
    rintro rfl
    simp [hc] at hd
  have hpoint : c ≠ '.' := hne (by decide)
  have hzero : c ≠ '0' := hne (by decide)
  have hspan : spanDigits Char.isDigit (c :: cs) = ([], c :: cs) := by simp [spanDigits, hdigit]
  have hdecimal : decimal? (c :: cs) = none := by
    rw [decimal?, hspan]
    simp only
    split
    · rename_i heq
      exact absurd (List.cons.inj heq).1 hpoint
    · rfl
  have hbased : based? (c :: cs) = none := by
    unfold based?
    split
    · rename_i heq
      exact absurd (List.cons.inj heq).1 hzero
    · rfl
  have hinteger : integer? (c :: cs) = none := by
    rw [integer?, hspan]
    · rfl
    · exact fun _ heq => hzero (List.cons.inj heq).1
  simp [scan?, allDigits?, hspan, hdecimal, hbased, hinteger]

end Literal

theorem mark?_letter {c : Char} (hc : c.isAlpha = true) (cs : List Char) : mark? (c :: cs) = none := by
  have hne {d : Char} (hd : d.isAlpha = false) : c ≠ d := by
    rintro rfl
    simp [hc] at hd
  have hmark : markOf? c = none := by
    simp [markOf?, hne (d := '+') (by decide), hne (d := '-') (by decide), hne (d := '*') (by decide),
      hne (d := '/') (by decide), hne (d := '^') (by decide), hne (d := '(') (by decide), hne (d := ')') (by decide),
      hne (d := ',') (by decide), hne (d := '.') (by decide)]
  rw [mark?, hmark]
  · rfl
  · exact fun _ h _ => hne (by decide) h
  · exact fun _ h _ => hne (by decide) h
  · exact fun _ h _ => hne (by decide) h

theorem lexed_nil {ls : List Lexeme} (h : Lexed [] ls) : ls = [] := by
  cases h with
  | nil => rfl
  | lexeme hlexeme => simpa using (shortened_lexeme hlexeme).length_lt

theorem lexed_word {w : List Char} (hne : w ≠ []) (hw : ∀ c ∈ w, c.isAlpha = true) : Lexed w [.word w] := by
  cases w with
  | nil => exact absurd rfl hne
  | cons c w =>
    have hc := hw c List.mem_cons_self
    have hall : ∀ d ∈ c :: w, d.isAlphanum = true := fun d hd => by simp [Char.isAlphanum, hw d hd]
    have hspan : Literal.spanDigits Char.isAlphanum (c :: w ++ []) = (c :: w, []) := Literal.spanDigits_of_all hall (by simp)
    rw [List.append_nil, Literal.spanDigits, Prod.mk.injEq] at hspan
    have hlexeme : lexeme? (c :: w) = some (.word (c :: w), []) := by
      simp [lexeme?, Literal.scan?_letter hc, mark?_letter hc, hc, hspan]
    exact .lexeme hlexeme .nil

theorem lexed_digits {n : Nat} {w : List Char} {ls : List Lexeme} (hends : Literal.EndsDigits w)
    (hbase : Literal.based? ('0' :: w) = none) (hw : Lexed w ls) :
    Lexed (Nat.toDigits 10 n ++ w) (.number (.integer 10 (Nat.toDigits 10 n)) false :: ls) := by
  refine .lexeme ?_ hw
  unfold lexeme?
  rw [Literal.scan?_digits hends hbase]

namespace Piece

/-- The mark of an operator. -/
def markOf : Op → Mark
  | .add => .plus
  | .sub => .minus
  | .mul => .star
  | .div => .slash
  | .pow => .caret
  | .call _ => .comma

/-- The lexemes of the digits and letters of a piece. -/
def atomLexemes : Piece → List Lexeme
  | .number n => [.number (.integer 10 (Nat.toDigits 10 n)) false]
  | .name w => [.word w.toList]
  | .multiple n w => [.number (.integer 10 (Nat.toDigits 10 n)) false, .word w.toList]
  | .opening f => [.word f.toList]
  | _ => []

/-- The lexemes of the signs of a piece. -/
def signLexemes : Piece → List Lexeme
  | .opening _ | .openParen => [.mark .openParen]
  | .closeParen => [.mark .closeParen]
  | .minus => [.mark .minus]
  | .comma => [.mark .comma]
  | .operator op => [.mark (markOf op)]
  | _ => []

/-- The lexemes of several pieces. -/
def lexemes (ps : List Piece) : List Lexeme :=
  ps.flatMap fun p => p.atomLexemes ++ p.signLexemes

theorem based?_name {w : String} (hw : IsName w) : Literal.based? ('0' :: w.toList) = none := by
  rcases hw with ⟨c, -, rfl⟩ | rfl
  · have hc : c.toString.toList = [c] := by simp
    rw [hc, Literal.based?]
    split
    · simp [Literal.spanDigits]
    · rfl
  · rfl

theorem lexed_atom {p : Piece} (hproper : p.Proper) : Lexed p.atom p.atomLexemes := by
  have hname {w : String} (hw : IsName w) : Lexed w.toList [.word w.toList] := by
    refine lexed_word ?_ hw.length_or_reserved.1
    rcases hw with ⟨c, -, rfl⟩ | rfl <;> simp
  cases p with
  | number n =>
    have hdigits := lexed_digits (n := n) (w := []) (by simp [Literal.EndsDigits]) rfl .nil
    rwa [List.append_nil] at hdigits
  | name w => exact hname hproper
  | multiple n w =>
    refine lexed_digits (fun c hc => ?_) (based?_name hproper.2.1) (hname hproper.2.1)
    have hmem := List.mem_of_head? hc
    have hletter := hproper.2.1.length_or_reserved.1 c hmem
    refine ⟨isDigit_of_isAlpha hletter, ?_, not_literalLetter_of_name hproper.2.1 hproper.2.2 c hmem⟩
    rintro rfl
    simp at hletter
  | opening f =>
    have hne : ∀ f ∈ Text.functionNames, f.toList ≠ [] := by decide
    exact lexed_word (hne f hproper) (isAlpha_function hproper).1
  | _ => exact .nil

theorem lexed_signs {p : Piece} {more : List Char} {ls : List Lexeme} (hproper : p.Proper)
    (hslash : p = .operator .div → more.head? ≠ some '/') (hmore : Lexed more ls) :
    Lexed (p.signs ++ more) (p.signLexemes ++ ls) := by
  cases p with
  | number | name | multiple => exact hmore
  | opening | openParen | closeParen | minus => exact .lexeme rfl hmore
  | comma => exact .lexeme rfl (.blank (.inl rfl) hmore)
  | operator op =>
    cases op with
    | add | sub | mul => exact .blank (.inl rfl) (.lexeme rfl (.blank (.inl rfl) hmore))
    | pow => exact .lexeme rfl hmore
    | div =>
      refine .lexeme ?_ hmore
      cases more with
      | nil => rfl
      | cons c more =>
        have hmark : mark? ('/' :: c :: more) = some (.slash, c :: more) := by
          rw [mark?]
          · rfl
          · exact fun _ h _ => absurd h (by decide)
          · rintro rest - heq
            exact hslash rfl (congrArg List.head? heq)
          · exact fun _ h _ => absurd h (by decide)
        have hscan : Literal.scan? ('/' :: c :: more) = none := rfl
        change lexeme? ('/' :: c :: more) = _
        unfold lexeme?
        rw [hscan, hmark]
        rfl
    | call => simp [Proper, Op.isArithmetic] at hproper

theorem head?_of_begins {p : Piece} (hbegins : p.begins = true) (hproper : p.Proper) (more : List Char) :
    (p.chars ++ more).head? ≠ some '/' := by
  intro hhead
  rw [List.head?_append, List.head?_eq_some_head (chars_ne_nil hproper (.inl hbegins)), Option.some_or,
    ← List.head?_eq_some_head] at hhead
  have hmem := List.mem_of_head? hhead
  rcases List.mem_append.mp hmem with hatom | hsigns
  · exact absurd (isAlphanum_of_mem_atom hproper hatom) (by decide)
  · cases p with
    | operator | comma | closeParen => simp [begins] at hbegins
    | _ => simp [signs] at hsigns

theorem atomLexemes_of_atom_eq_nil {p : Piece} (hp : p.Proper) (hatom : p.atom = []) : p.atomLexemes = [] := by
  cases p with
  | name w => rcases hp with ⟨c, -, rfl⟩ | rfl <;> simp [atom] at hatom
  | number n => simp [atom, Nat.toDigits_ne_nil] at hatom
  | multiple n w => simp [atom, Nat.toDigits_ne_nil] at hatom
  | opening f =>
    have hne : ∀ f ∈ Text.functionNames, f.toList ≠ [] := by decide
    exact absurd hatom (hne f hp)
  | _ => rfl

/-- Behind a number or a name the text ends, or goes on with a character that ends the number or the name. -/
theorem closer_behind_atom {p : Piece} {ps : List Piece} (halternate : Alternate (p :: ps)) (hlater : ∀ q ∈ ps, q.Proper)
    (hatom : p.atom ≠ []) : p.signs ++ text ps = [] ∨ ∃ c cs, p.signs ++ text ps = c :: cs ∧ c ∈ closers := by
  by_cases hends : p.ends = true
  · have hnone : p.signs = [] := by
      cases p <;> first | exact absurd rfl hatom | rfl | simp [ends] at hends
    rw [hnone, List.nil_append]
    refine (text_after_end hends halternate hlater).imp (fun h => by rw [h]; rfl) fun hbehind => ?_
    obtain ⟨c, cs, htext, hc⟩ := hbehind
    exact ⟨c, cs, htext, (by decide : ∀ c ∈ [' ', ')', ',', '/', '^'], c ∈ closers) c hc⟩
  · refine .inr ?_
    cases p with
    | opening f => exact ⟨'(', text ps, rfl, by decide⟩
    | number | name | multiple => simp [ends] at hends
    | _ => exact absurd rfl hatom

theorem lexed_text {ps : List Piece} (halternate : Alternate ps) (hproper : ∀ p ∈ ps, p.Proper) :
    Lexed (text ps) (lexemes ps) := by
  induction ps with
  | nil => exact .nil
  | cons p ps ih =>
    have hp := hproper p List.mem_cons_self
    have hlater : ∀ q ∈ ps, q.Proper := fun q hq => hproper q (List.mem_cons_of_mem p hq)
    have hslash (hdiv : p = .operator .div) : (text ps).head? ≠ some '/' := by
      subst hdiv
      cases ps with
      | nil => simp [text]
      | cons q qs =>
        have hq : q.begins = true := by simpa [ends] using (List.isChain_cons_cons.mp halternate).1
        exact head?_of_begins hq (hlater q List.mem_cons_self) (text qs)
    have hsigns := lexed_signs hp hslash (ih halternate.tail hlater)
    have hlexemes : lexemes (p :: ps) = p.atomLexemes ++ (p.signLexemes ++ lexemes ps) := by simp [lexemes]
    rw [text_cons, hlexemes]
    by_cases hatom : p.atom = []
    · rwa [hatom, atomLexemes_of_atom_eq_nil hp hatom]
    · rcases closer_behind_atom halternate hlater hatom with hnil | ⟨c, cs, hcons, hc⟩
      · rw [hnil] at hsigns ⊢
        rw [lexed_nil hsigns, List.append_nil, List.append_nil]
        exact lexed_atom hp
      · rw [hcons] at hsigns ⊢
        refine (lexed_atom hp).append hc (fun h hlast => ?_) hsigns
        exact absurd (isAlphanum_of_mem_atom hp (List.mem_of_getLast? hlast)) (by decide)

end Piece

end AlgebraTutor.Reader
