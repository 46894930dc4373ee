import AlgebraTutor.Proofs.Reader.Spelling
import AlgebraTutor.Proofs.Reader.Text
import AlgebraTutor.Proofs.Text.Blank
import AlgebraTutor.Proofs.Text.Digit
import AlgebraTutor.Proofs.Text.Display

/-!
# The pieces of a written tree

A tree is written in pieces: numbers, names, multiples such as `3x`, functions with their parentheses, signs and
commas. A piece that ends an operand is followed by one that begins none, and the other way round, so every stage of
the reader can be followed piece by piece: the text is plain already, its runs of letters stand for themselves, and it
is cut where one piece meets the next.
-/

namespace AlgebraTutor.Reader

/-- A piece of a written tree. -/
inductive Piece
  | number (n : Nat)
  | name (w : String)
  | multiple (n : Nat) (w : String)
  | opening (f : String)
  | openParen
  | closeParen
  | minus
  | operator (op : Op)
  | comma

namespace Piece

/-- A name is a single letter or `pi`. -/
def IsName (w : String) : Prop :=
  (∃ c : Char, c.isAlpha = true ∧ w = c.toString) ∨ w = "pi"

/-- The piece occurs in written trees: numbers are within the limit, and a name behind a number does not fuse with it. -/
def Proper : Piece → Prop
  | .number n => (Nat.toDigits 10 n).length ≤ Tree.digitLimit
  | .name w => IsName w
  | .multiple n w => (Nat.toDigits 10 n).length ≤ Tree.digitLimit ∧ IsName w ∧ Tree.fusesWithDigits w = false
  | .opening f => f ∈ Text.functionNames
  | .operator op => op.isArithmetic = true
  | _ => True

/-- The digits and letters that a piece begins with. -/
def atom : Piece → List Char
  | .number n => Nat.toDigits 10 n
  | .name w => w.toList
  | .multiple n w => Nat.toDigits 10 n ++ w.toList
  | .opening f => f.toList
  | _ => []

/-- The signs and blanks behind the digits and letters of a piece. -/
def signs : Piece → List Char
  | .opening _ | .openParen => ['(']
  | .closeParen => [')']
  | .minus => ['-']
  | .comma => [',', ' ']
  | .operator .add => [' ', '+', ' ']
  | .operator .sub => [' ', '-', ' ']
  | .operator .mul => [' ', '*', ' ']
  | .operator .div => ['/']
  | .operator .pow => ['^']
  | _ => []

/-- The characters of a piece. -/
def chars (p : Piece) : List Char :=
  p.atom ++ p.signs

/-- Does an operand begin with the piece? -/
def begins : Piece → Bool
  | .closeParen | .operator _ | .comma => false
  | _ => true

/-- Does an operand end with the piece? -/
def ends : Piece → Bool
  | .number _ | .name _ | .multiple _ _ | .closeParen => true
  | _ => false

/-- Behind the end of an operand none begins, and elsewhere one begins. -/
def Alternate (ps : List Piece) : Prop :=
  ps.IsChain fun p q => p.ends = !q.begins

/-! ### Characters -/

/-- The characters of several pieces. -/
def text (ps : List Piece) : List Char :=
  ps.flatMap chars

theorem text_cons (p : Piece) (ps : List Piece) : text (p :: ps) = p.atom ++ (p.signs ++ text ps) := by
  simp [text, chars]

theorem text_append (ps qs : List Piece) : text (ps ++ qs) = text ps ++ text qs :=
  List.flatMap_append

theorem mem_signs {p : Piece} {c : Char} (hc : c ∈ p.signs) : c ∈ ['(', ')', '-', ',', ' ', '+', '*', '/', '^'] := by
  unfold signs at hc
  split at hc <;> simp only [List.mem_cons, List.not_mem_nil, or_false] at hc ⊢ <;> tauto

theorem isSeparator_signs {p : Piece} {c : Char} (hc : c ∈ p.signs) : Text.isSeparator c = true := by
  have hsigns : ∀ c ∈ ['(', ')', '-', ',', ' ', '+', '*', '/', '^'], Text.isSeparator c = true := by decide
  exact hsigns c (mem_signs hc)

/-- The signs of a piece that no operand begins with are the ends of whatever stands before them. -/
theorem signs_of_not_begins {p : Piece} (hbegins : p.begins = false) (hproper : p.Proper) :
    ∃ c more, p.signs = c :: more ∧ p.atom = [] ∧ c ∈ [' ', ')', ',', '/', '^'] := by
  cases p with
  | closeParen | comma => exact ⟨_, _, rfl, rfl, by simp⟩
  | operator op =>
    cases op with
    | call => simp [Proper, Op.isArithmetic] at hproper
    | _ => exact ⟨_, _, rfl, rfl, by simp⟩
  | _ => simp [begins] at hbegins

theorem ends_of_signs_eq_nil {p : Piece} (hsigns : p.signs = []) (hproper : p.Proper) : p.ends = true := by
  cases p with
  | operator op =>
    cases op with
    | call => simp [Proper, Op.isArithmetic] at hproper
    | _ => simp [signs] at hsigns
  | number | name | multiple => rfl
  | _ => simp [signs] at hsigns

/-- A piece that ends an operand is followed by nothing, or by a sign. -/
theorem text_after_end {p : Piece} {ps : List Piece} (hends : p.ends = true) (halternate : Alternate (p :: ps))
    (hproper : ∀ q ∈ ps, q.Proper) : ps = [] ∨ ∃ c more, text ps = c :: more ∧ c ∈ [' ', ')', ',', '/', '^'] := by
  cases ps with
  | nil => exact .inl rfl
  | cons q qs =>
    have hq : q.begins = false := by simpa [hends] using (List.isChain_cons_cons.mp halternate).1
    obtain ⟨c, more, hsigns, hatom, hc⟩ := signs_of_not_begins hq (hproper q List.mem_cons_self)
    exact .inr ⟨c, more ++ text qs, by rw [text_cons, hatom, hsigns]; rfl, hc⟩

/-- Behind the digits and letters of a piece stands nothing or a sign. -/
theorem signs_text_cases {p : Piece} {ps : List Piece} (halternate : Alternate (p :: ps))
    (hproper : ∀ q ∈ p :: ps, q.Proper) :
    p.signs ++ text ps = [] ∨ ∃ c more, p.signs ++ text ps = c :: more ∧ Text.isSeparator c = true := by
  cases hsigns : p.signs with
  | cons c signs => exact .inr ⟨c, signs ++ text ps, rfl, isSeparator_signs (p := p) (by simp [hsigns])⟩
  | nil =>
    have hends := ends_of_signs_eq_nil hsigns (hproper p List.mem_cons_self)
    have hseparators : ∀ c ∈ [' ', ')', ',', '/', '^'], Text.isSeparator c = true := by decide
    rcases text_after_end hends halternate fun q hq => hproper q (List.mem_cons_of_mem p hq) with rfl | ⟨c, more, htext, hc⟩
    · exact .inl rfl
    · exact .inr ⟨c, more, htext, hseparators c hc⟩

/-- What stops at signs, and leaves the digits and letters of a piece as they are, leaves the text of pieces as it is. -/
theorem text_fixed {f : List Char → List Char} (hnil : f [] = [])
    (happend : ∀ c cs more, Text.isSeparator c = true → f (cs ++ c :: more) = f cs ++ c :: f more)
    (hatom : ∀ p : Piece, p.Proper → f p.atom = p.atom) {ps : List Piece} (halternate : Alternate ps)
    (hproper : ∀ p ∈ ps, p.Proper) : f (text ps) = text ps := by
  have hcons {c : Char} (hc : Text.isSeparator c = true) (more : List Char) : f (c :: more) = c :: f more := by
    have h := happend c [] more hc
    rwa [List.nil_append, hnil] at h
  induction ps with
  | nil => exact hnil
  | cons p ps ih =>
    have hp := hproper p List.mem_cons_self
    have hrest := ih halternate.tail fun q hq => hproper q (List.mem_cons_of_mem p hq)
    have hsigns (signs : List Char) (hsep : ∀ c ∈ signs, Text.isSeparator c = true) :
        f (signs ++ text ps) = signs ++ text ps := by
      induction signs with
      | nil => exact hrest
      | cons c signs ih =>
        rw [List.cons_append, hcons (hsep c List.mem_cons_self), ih fun d hd => hsep d (List.mem_cons_of_mem c hd)]
    have hbehind := hsigns p.signs fun c hc => isSeparator_signs hc
    rw [text_cons]
    rcases signs_text_cases halternate hproper with hmore | ⟨c, more, hmore, hc⟩
    · rw [hmore, List.append_nil, hatom p hp]
    · rw [hmore, hcons hc] at hbehind
      rw [hmore, happend c _ _ hc, hatom p hp, hbehind]

theorem isVariableOf_text {c : Char} {p : Piece} {ps : List Piece} (halternate : Alternate ps) (hproper : ∀ q ∈ ps, q.Proper)
    (hp : p ∈ ps) (hc : Text.IsVariableOf c p.atom) : Text.IsVariableOf c (text ps) := by
  have hnil : ¬Text.IsVariableOf c [] := by simp [Text.IsVariableOf, Text.letterRuns]
  have hsigns {signs more : List Char} (hsep : ∀ d ∈ signs, Text.isSeparator d = true) :
      Text.IsVariableOf c (signs ++ more) ↔ Text.IsVariableOf c more := by
    induction signs with
    | nil => rfl
    | cons d signs ih =>
      rw [List.cons_append, Text.isVariableOf_other (Text.isAlpha_separator (hsep d List.mem_cons_self)),
        ih fun e he => hsep e (List.mem_cons_of_mem d he)]
  induction ps with
  | nil => simp at hp
  | cons q ps ih =>
    have hbehind : Text.IsVariableOf c (text (q :: ps)) ↔ Text.IsVariableOf c q.atom ∨ Text.IsVariableOf c (text ps) := by
      have hrest : Text.IsVariableOf c (q.signs ++ text ps) ↔ Text.IsVariableOf c (text ps) :=
        hsigns fun d hd => isSeparator_signs hd
      rw [← hrest, text_cons]
      rcases signs_text_cases halternate hproper with hmore | ⟨d, more, hmore, hd⟩
      · simp [hmore, hnil]
      · rw [hmore, Text.isVariableOf_append (Text.isAlpha_separator hd), Text.isVariableOf_other (Text.isAlpha_separator hd)]
    rw [hbehind]
    rcases List.mem_cons.mp hp with rfl | hp
    · exact .inl hc
    · exact .inr (ih halternate.tail (fun r hr => hproper r (List.mem_cons_of_mem q hr)) hp)

/-! ### Digits and letters -/

theorem IsName.length_or_reserved {w : String} (hw : IsName w) :
    (∀ c ∈ w.toList, c.isAlpha = true) ∧ (Text.isReserved w.toList = true ∨ w.toList.length = 1) := by
  rcases hw with ⟨c, hc, rfl⟩ | rfl
  · simp [hc]
  · decide

theorem isAlpha_function {f : String} (hf : f ∈ Text.functionNames) :
    (∀ c ∈ f.toList, c.isAlpha = true) ∧ Text.isReserved f.toList = true := by
  have hfunctions : ∀ f ∈ Text.functionNames, (∀ c ∈ f.toList, c.isAlpha = true) ∧ Text.isReserved f.toList = true := by
    decide
  exact hfunctions f hf

theorem isAlpha_digits {n : Nat} {c : Char} (hc : c ∈ Nat.toDigits 10 n) : c.isAlpha = false :=
  isAlpha_of_isDigit (Text.isDigit_of_mem_digits hc)

theorem not_literalLetter_of_isDigit {c : Char} (hc : c.isDigit = true) : Text.isLiteralLetter c = false := by
  cases hletter : Text.isLiteralLetter c with
  | false => rfl
  | true =>
    simp only [Text.isLiteralLetter, Bool.or_eq_true, beq_iff_eq] at hletter
    rcases hletter with ((rfl | rfl) | rfl) | rfl <;> simp at hc

/-- A name that does not fuse with digits has no letter that ends a number literal. -/
theorem not_literalLetter_of_name {w : String} (hw : IsName w) (hfuses : Tree.fusesWithDigits w = false) :
    ∀ c ∈ w.toList, Text.isLiteralLetter c = false := by
  rcases hw with ⟨c, hc, rfl⟩ | rfl
  · intro d hd
    obtain rfl : d = c := by simpa using hd
    rw [← Bool.not_eq_true]
    intro hletter
    simp only [Text.isLiteralLetter, Bool.or_eq_true, beq_iff_eq] at hletter
    rcases hletter with ((rfl | rfl) | rfl) | rfl <;> exact absurd hfuses (by decide)
  · decide

theorem not_mem_dropLast_name {w : String} (hw : IsName w) : 'P' ∉ w.toList.dropLast := by
  rcases hw with ⟨c, -, rfl⟩ | rfl
  · simp
  · decide

theorem not_mem_digits {n : Nat} : 'P' ∉ Nat.toDigits 10 n :=
  fun h => absurd (Text.isDigit_of_mem_digits h) (by decide)

theorem lowerPi_atom {p : Piece} (hp : p.Proper) : Text.lowerPi false p.atom = p.atom := by
  refine Text.lowerPi_eq_self ?_ false
  cases p with
  | number n => exact fun h => not_mem_digits (List.dropLast_subset _ h)
  | name w => exact not_mem_dropLast_name hp
  | multiple n w =>
    have hne : w.toList ≠ [] := by
      rcases hp.2.1 with ⟨c, -, rfl⟩ | rfl <;> simp
    rw [atom, List.dropLast_append_of_ne_nil hne, List.mem_append, not_or]
    exact ⟨not_mem_digits, not_mem_dropLast_name hp.2.1⟩
  | opening f =>
    have hfunctions : ∀ f ∈ Text.functionNames, 'P' ∉ f.toList.dropLast := by decide
    exact hfunctions f hp
  | _ => simp [atom]

theorem setOffLetters_atom {p : Piece} (hp : p.Proper) : Text.setOffLetters p.atom = p.atom := by
  refine Text.setOffLetters_eq_self ?_
  have hdigits (n : Nat) : ∀ c ∈ Nat.toDigits 10 n, Text.isLiteralLetter c = false :=
    fun c hc => not_literalLetter_of_isDigit (Text.isDigit_of_mem_digits hc)
  cases p with
  | number n => exact fun c hc => hdigits n c (List.mem_of_mem_tail hc)
  | name w =>
    rcases hp with ⟨c, -, rfl⟩ | rfl
    · simp [atom]
    · decide
  | multiple n w =>
    intro c hc
    rcases List.mem_append.mp (List.mem_of_mem_tail hc) with hc | hc
    · exact hdigits n c hc
    · exact not_literalLetter_of_name hp.2.1 hp.2.2 c hc
  | opening f =>
    have hfunctions : ∀ f ∈ Text.functionNames, ∀ c ∈ f.toList.tail, Text.isLiteralLetter c = false := by decide
    exact hfunctions f hp
  | _ => simp [atom]

theorem spellProducts_atom (vars : List Char) {p : Piece} (hp : p.Proper) : Text.spellProducts vars p.atom = p.atom := by
  cases p with
  | number n =>
    rw [atom, ← List.append_nil (Nat.toDigits 10 n), Text.spellProducts_outside fun c hc => isAlpha_digits hc]
    rfl
  | name w => exact Text.spellProducts_eq_self hp.length_or_reserved.1 hp.length_or_reserved.2
  | multiple n w =>
    obtain ⟨hletters, hname⟩ := hp.2.1.length_or_reserved
    rw [atom, Text.spellProducts_outside (fun c hc => isAlpha_digits hc), Text.spellProducts_eq_self hletters hname]
  | opening f => exact Text.spellProducts_eq_self (isAlpha_function hp).1 (.inl (isAlpha_function hp).2)
  | _ => rfl

theorem isAlphanum_of_mem_atom {p : Piece} (hp : p.Proper) {c : Char} (hc : c ∈ p.atom) : c.isAlphanum = true := by
  have hdigits {n : Nat} (hc : c ∈ Nat.toDigits 10 n) : c.isAlphanum = true := by
    simp [Char.isAlphanum, Text.isDigit_of_mem_digits hc]
  have hletters {w : List Char} (hw : ∀ c ∈ w, c.isAlpha = true) (hc : c ∈ w) : c.isAlphanum = true := by
    simp [Char.isAlphanum, hw c hc]
  cases p with
  | number n => exact hdigits hc
  | name w => exact hletters hp.length_or_reserved.1 hc
  | multiple n w => exact (List.mem_append.mp hc).elim hdigits (hletters hp.2.1.length_or_reserved.1)
  | opening f => exact hletters (isAlpha_function hp).1 hc
  | _ => simp [atom] at hc

/-! ### The text of pieces is plain -/

/-- The pieces of an operand: proper ones, which begin and end an operand and alternate. -/
structure IsOperandText (ps : List Piece) : Prop where
  proper : ∀ p ∈ ps, p.Proper
  alternate : Alternate ps
  begins : ∃ p ∈ ps.head?, p.begins = true
  ends : ∃ p ∈ ps.getLast?, p.ends = true

theorem isAllowed_of_mem_text {ps : List Piece} (hproper : ∀ p ∈ ps, p.Proper) {c : Char} (hc : c ∈ text ps) :
    isAllowed c = true := by
  obtain ⟨p, hp, hc⟩ := List.mem_flatMap.mp hc
  rcases List.mem_append.mp hc with hc | hc
  · simp [isAllowed, isAlphanum_of_mem_atom (hproper p hp) hc]
  · have hsigns : ∀ c ∈ ['(', ')', '-', ',', ' ', '+', '*', '/', '^'], isAllowed c = true := by decide
    exact hsigns c (mem_signs hc)

theorem plainSpelling_of_isAllowed {c : Char} (hc : isAllowed c = true) : Text.plainSpelling c = [c] := by
  have hne {d : Char} (hd : isAllowed d = false) : c ≠ d := by
    rintro rfl
    simp [hc] at hd
  have hroot : c ≠ '√' := hne (by decide)
  have hpi : c ≠ 'π' := hne (by decide)
  have htimes : ¬(c = '·' ∨ c = '×') := not_or.mpr ⟨hne (by decide), hne (by decide)⟩
  have hminus : c ≠ '−' := hne (by decide)
  have hdivide : c ≠ '÷' := hne (by decide)
  have hopen : ¬(c = '[' ∨ c = '\x7b') := not_or.mpr ⟨hne (by decide), hne (by decide)⟩
  have hclose : ¬(c = ']' ∨ c = '\x7d') := not_or.mpr ⟨hne (by decide), hne (by decide)⟩
  rw [Text.plainSpelling, if_neg hroot, if_neg hpi, if_neg htimes, if_neg hminus, if_neg hdivide, if_neg hopen,
    if_neg hclose]

/-- In a text that is trimmed, holds allowed characters only and no name to write anew, letters are set off and no more. -/
theorem plain_eq_setOffLetters {cs : List Char} (hallowed : ∀ c ∈ cs, isAllowed c = true) (htrim : Text.trimChars cs = cs)
    (hlower : Text.lowerPi false cs = cs) : Text.plain cs = Text.setOffLetters cs := by
  have hspelling : cs.flatMap Text.plainSpelling = cs := by
    rw [List.flatMap_congr fun c hc => plainSpelling_of_isAllowed (hallowed c hc), List.flatMap_singleton']
  rw [Text.plain, htrim, hspelling, hlower]

theorem plain_eq_self {cs : List Char} (hallowed : ∀ c ∈ cs, isAllowed c = true) (htrim : Text.trimChars cs = cs)
    (hlower : Text.lowerPi false cs = cs) (hset : Text.setOffLetters cs = cs) : Text.plain cs = cs :=
  (plain_eq_setOffLetters hallowed htrim hlower).trans hset

theorem not_isBlank_of_isAlphanum {c : Char} (hc : c.isAlphanum = true) : Text.isBlank c = false := by
  delta Char.isAlphanum Char.isAlpha Char.isUpper Char.isLower at hc
  simp only [Char.isDigit, Bool.or_eq_true, Bool.and_eq_true, decide_eq_true_eq, ge_iff_le, UInt32.le_iff_toNat_le] at hc
  simp only [Text.isBlank, Bool.or_eq_false_iff, Bool.and_eq_false_iff, decide_eq_false_iff_not, beq_eq_false_iff_ne,
    Char.toNat]
  simp at hc ⊢
  omega

/-- A piece that is not blank where an operand begins, and where one ends. -/
theorem not_blank_chars {p : Piece} (hproper : p.Proper) :
    (p.begins = true → ∀ c ∈ p.chars.head?, Text.isBlank c = false) ∧
      (p.ends = true → ∀ c ∈ p.chars.getLast?, Text.isBlank c = false) := by
  have hatom {c : Char} (hc : c ∈ p.atom) : Text.isBlank c = false :=
    not_isBlank_of_isAlphanum (isAlphanum_of_mem_atom hproper hc)
  cases p with
  | number | name | multiple =>
    refine ⟨fun _ c hc => hatom ?_, fun _ c hc => hatom ?_⟩
    · simpa [chars, signs] using List.mem_of_head? hc
    · simpa [chars, signs] using List.mem_of_getLast? hc
  | opening f =>
    refine ⟨fun _ c hc => hatom ?_, nofun⟩
    have hne : f.toList ≠ [] := by
      have hfunctions : ∀ f ∈ Text.functionNames, f.toList ≠ [] := by decide
      exact hfunctions f hproper
    rw [chars, List.head?_append, atom, List.head?_eq_some_head hne, Option.some_or, ← List.head?_eq_some_head] at hc
    exact List.mem_of_head? hc
  | openParen | closeParen | minus | comma => simp [begins, ends, chars, atom, signs, Text.isBlank]
  | operator => exact ⟨nofun, nofun⟩

theorem chars_ne_nil {p : Piece} (hproper : p.Proper) (h : p.begins = true ∨ p.ends = true) : p.chars ≠ [] := by
  cases p with
  | number n => simp [chars, atom, signs, Nat.toDigits_ne_nil]
  | name w => rcases hproper with ⟨c, -, rfl⟩ | rfl <;> simp [chars, atom, signs]
  | multiple n w => simp [chars, atom, signs, Nat.toDigits_ne_nil]
  | operator => simp [begins, ends] at h
  | comma => simp [begins, ends] at h
  | _ => simp [chars, atom, signs]

theorem trimChars_text {ps : List Piece} (h : IsOperandText ps) : Text.trimChars (text ps) = text ps := by
  obtain ⟨p, hp, hbegins⟩ := h.begins
  obtain ⟨q, hq, hends⟩ := h.ends
  refine Text.trimChars_eq_self ?_ ?_
  · obtain ⟨rest, rfl⟩ := List.head?_eq_some_iff.mp hp
    have hproper := h.proper p List.mem_cons_self
    have hne := chars_ne_nil hproper (.inl hbegins)
    have hhead : (text (p :: rest)).head? = p.chars.head? := by
      rw [text, List.flatMap_cons, List.head?_append, List.head?_eq_some_head hne, Option.some_or]
    exact hhead ▸ (not_blank_chars hproper).1 hbegins
  · obtain ⟨front, rfl⟩ := List.getLast?_eq_some_iff.mp hq
    have hproper := h.proper q (by simp)
    have hne := chars_ne_nil hproper (.inr hends)
    have hlast : (text (front ++ [q])).getLast? = q.chars.getLast? := by
      rw [text_append, List.getLast?_append, text, List.flatMap_cons, List.flatMap_nil, List.append_nil,
        List.getLast?_eq_some_getLast hne, Option.some_or]
    exact hlast ▸ (not_blank_chars hproper).2 hends

theorem plain_text {ps : List Piece} (h : IsOperandText ps) : Text.plain (text ps) = text ps :=
  plain_eq_self (fun _ hc => isAllowed_of_mem_text h.proper hc) (trimChars_text h)
    (text_fixed rfl (fun _ cs more hc => Text.lowerPi_append hc false cs more) (fun _ => lowerPi_atom) h.alternate h.proper)
    (text_fixed rfl (fun _ cs more hc => Text.setOffLetters_append hc cs more) (fun _ => setOffLetters_atom) h.alternate h.proper)

theorem spellProducts_text (vars : List Char) {ps : List Piece} (h : IsOperandText ps) :
    Text.spellProducts vars (text ps) = text ps :=
  text_fixed rfl (fun _ cs more hc => Text.spellProducts_append (Text.isAlpha_separator hc) cs more)
    (fun _ => spellProducts_atom vars) h.alternate h.proper

end Piece

end AlgebraTutor.Reader
