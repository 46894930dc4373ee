import Mathlib.Data.List.Infix
import Mathlib.Data.List.TakeWhile
import AlgebraTutor.Proofs.Text.Display
import AlgebraTutor.Text.Blank

/-!
# Rows of signs

A row of two or more equal signs stands in the plain spelling of a text exactly where signs that are displayed as this one
stand side by side in the text itself: what is spelled out in several characters brings no such row and breaks none, and a
star that sets off a letter stands alone.
-/

namespace AlgebraTutor.Text

theorem containsChars_iff_infix {w cs : List Char} : containsChars w cs = true ↔ w <:+: cs := by
  induction cs with
  | nil => rw [containsChars, List.isEmpty_iff, List.infix_nil]
  | cons c cs ih => rw [containsChars, Bool.or_eq_true, List.isPrefixOf_iff_prefix, ih, List.infix_cons_iff]

theorem withoutBlanks_trimChars (cs : List Char) : withoutBlanks (trimChars cs) = withoutBlanks cs := by
  have hdrop (ds : List Char) : withoutBlanks (ds.dropWhile isBlank) = withoutBlanks ds := by
    conv_rhs => rw [← List.takeWhile_append_dropWhile (p := isBlank) (l := ds)]
    have hblank : (ds.takeWhile isBlank).filter (fun c => !isBlank c) = [] :=
      List.filter_eq_nil_iff.mpr fun c hc => by simpa using List.mem_takeWhile_imp hc
    rw [withoutBlanks, withoutBlanks, List.filter_append, hblank, List.nil_append]
  rw [trimChars, withoutBlanks, List.filter_reverse]
  change (withoutBlanks ((cs.dropWhile isBlank).reverse.dropWhile isBlank)).reverse = _
  rw [hdrop, withoutBlanks, List.filter_reverse, List.reverse_reverse]
  exact hdrop cs

/-- Neither the sign nor a blank. -/
def Besides (o c : Char) : Prop :=
  c ≠ o ∧ isBlank c = false

/-- Two texts that agree in their signs `o`, but for single ones between other characters. -/
inductive SameRows (o : Char) : List Char → List Char → Prop
  | nil : SameRows o [] []
  | keep (c : Char) {cs ds : List Char} (h : SameRows o cs ds) : SameRows o (c :: cs) (c :: ds)
  | piece {v w cs ds : List Char} (hv : v ≠ [] ∧ ∀ c ∈ v, Besides o c) (hw : w ≠ [] ∧ ∀ c ∈ w, Besides o c)
    (h : SameRows o cs ds) : SameRows o (v ++ cs) (w ++ ds)
  | single {c d : Char} {cs ds : List Char} (hc : Besides o c) (hd : Besides o d) (h : SameRows o cs ds) :
    SameRows o (c :: d :: cs) (c :: o :: d :: ds)

namespace SameRows

variable {o : Char} {cs ds : List Char}

theorem withoutBlanks (ho : isBlank o = false) (h : SameRows o cs ds) :
    SameRows o (withoutBlanks cs) (withoutBlanks ds) := by
  have hpiece {w : List Char} (hw : ∀ c ∈ w, Besides o c) : w.filter (fun c => !isBlank c) = w :=
    List.filter_eq_self.mpr fun c hc => by simp [(hw c hc).2]
  induction h with
  | nil => exact .nil
  | keep c _ ih =>
    simp only [Text.withoutBlanks, List.filter_cons]
    split
    · exact .keep c ih
    · exact ih
  | piece hv hw _ ih =>
    rw [Text.withoutBlanks, Text.withoutBlanks, List.filter_append, List.filter_append, hpiece hv.2, hpiece hw.2]
    exact .piece hv hw ih
  | single hc hd _ ih =>
    simpa [Text.withoutBlanks, hc.2, hd.2, ho] using SameRows.single hc hd ih

theorem not_isPrefix {n : Nat} {w rest : List Char} (hw : w ≠ [] ∧ ∀ c ∈ w, Besides o c) :
    ¬List.replicate (n + 1) o <+: w ++ rest := by
  obtain ⟨c, w, rfl⟩ := List.exists_cons_of_ne_nil hw.1
  rw [List.replicate_succ, List.cons_append, List.cons_prefix_cons]
  exact fun h => (hw.2 c List.mem_cons_self).1 h.1.symm

theorem prefix_iff (h : SameRows o cs ds) (n : Nat) : List.replicate n o <+: cs ↔ List.replicate n o <+: ds := by
  induction h generalizing n with
  | nil => rfl
  | keep c _ ih =>
    cases n with
    | zero => simp
    | succ n => rw [List.replicate_succ, List.cons_prefix_cons, List.cons_prefix_cons, ih]
  | piece hv hw _ _ =>
    cases n with
    | zero => simp
    | succ n => exact iff_of_false (not_isPrefix hv) (not_isPrefix hw)
  | single hc _ _ _ =>
    cases n with
    | zero => simp
    | succ n => simp [List.replicate_succ, List.cons_prefix_cons, hc.1.symm]

theorem infix_piece {n : Nat} {w rest : List Char} (hw : ∀ c ∈ w, Besides o c) :
    List.replicate (n + 1) o <:+: w ++ rest ↔ List.replicate (n + 1) o <:+: rest := by
  induction w with
  | nil => rfl
  | cons c w ih =>
    rw [List.cons_append, List.infix_cons_iff, ih fun d hd => hw d (List.mem_cons_of_mem c hd)]
    exact or_iff_right (@not_isPrefix o n (c :: w) rest ⟨by simp, hw⟩)

/-- Only a single sign can have come in between. -/
theorem infix_iff (h : SameRows o cs ds) (n : Nat) :
    List.replicate (n + 2) o <:+: cs ↔ List.replicate (n + 2) o <:+: ds := by
  induction h with
  | nil => rfl
  | keep c h ih => rw [List.infix_cons_iff, List.infix_cons_iff, (SameRows.keep c h).prefix_iff, ih]
  | piece hv hw _ ih => rw [infix_piece hv.2, infix_piece hw.2, ih]
  | @single c d cs ds hc hd _ ih =>
    have hfirst : ∀ e ∈ [c, d], Besides o e := by simp [hc, hd]
    have hsecond : ¬List.replicate (n + 2) o <+: o :: d :: ds := by
      simp [List.replicate_succ, List.cons_prefix_cons, hd.1.symm]
    calc List.replicate (n + 2) o <:+: c :: d :: cs
        ↔ List.replicate (n + 2) o <:+: cs := infix_piece hfirst
      _ ↔ List.replicate (n + 2) o <:+: ds := ih
      _ ↔ List.replicate (n + 2) o <:+: d :: ds := (@infix_piece o _ [d] ds (by simp [hd])).symm
      _ ↔ List.replicate (n + 2) o <:+: o :: d :: ds := by rw [List.infix_cons_iff (a := o), or_iff_right hsecond]
      _ ↔ List.replicate (n + 2) o <:+: c :: o :: d :: ds := (@infix_piece o _ [c] _ (by simp [hc])).symm

end SameRows

/-! ### Plain texts -/

/-- The sign that a character is displayed for; every other character stands for itself. -/
def plainSign (c : Char) : Char :=
  if c = '·' ∨ c = '×' then '*' else if c = '−' then '-' else if c = '÷' then '/' else c

theorem withoutBlanks_map_plainSign (cs : List Char) : withoutBlanks (cs.map plainSign) = (withoutBlanks cs).map plainSign := by
  have hblank (c : Char) : isBlank (plainSign c) = isBlank c := by
    unfold plainSign
    split_ifs with hstar hminus hslash
    · rcases hstar with rfl | rfl <;> rfl
    · subst hminus
      rfl
    · subst hslash
      rfl
    · rfl
  simp [withoutBlanks, List.filter_map, Function.comp_def, hblank]

/-- The signs of an operation. -/
def operationSigns : List Char :=
  ['+', '-', '*', '/']

section Plain

variable {o : Char} (ho : o ∈ operationSigns)

include ho

theorem isBlank_operationSign : isBlank o = false := by
  have hall : ∀ c ∈ operationSigns, isBlank c = false := by decide
  exact hall o ho

theorem besides_of_forall {cs : List Char} (hcs : ∀ c ∈ cs, c ∉ operationSigns ∧ isBlank c = false) : ∀ c ∈ cs, Besides o c :=
  fun c hc => ⟨fun heq => (hcs c hc).1 (heq ▸ ho), (hcs c hc).2⟩

theorem besides_of_isDecimalDigit {d : Char} (hd : isDecimalDigit d = true) : Besides o d := by
  have hall : ∀ start ∈ digitZeros, ∀ k < 10,
      Char.ofNat (start + k) ∉ operationSigns ∧ isBlank (Char.ofNat (start + k)) = false := by decide +kernel
  obtain ⟨start, hstart, hrun⟩ := List.any_eq_true.mp hd
  rw [Bool.and_eq_true, decide_eq_true_eq, decide_eq_true_eq] at hrun
  obtain ⟨k, hk⟩ := Nat.exists_eq_add_of_le hrun.1
  obtain ⟨hsign, hblank⟩ := hall start hstart k (by omega)
  rw [← hk, Char.ofNat_toNat] at hsign hblank
  exact ⟨fun heq => hsign (heq ▸ ho), hblank⟩

theorem sameRows_plainSpelling (cs : List Char) : SameRows o (cs.map plainSign) (cs.flatMap plainSpelling) := by
  induction cs with
  | nil => exact .nil
  | cons c cs ih =>
    have hpiece {w : List Char} (hc : plainSign c = c ∧ c ∉ operationSigns ∧ isBlank c = false)
        (hw : w ≠ [] ∧ ∀ d ∈ w, d ∉ operationSigns ∧ isBlank d = false) :
        SameRows o (plainSign c :: cs.map plainSign) (w ++ cs.flatMap plainSpelling) :=
      .piece (v := [plainSign c]) ⟨by simp, besides_of_forall ho (by simpa [hc.1] using hc.2)⟩
        ⟨hw.1, besides_of_forall ho hw.2⟩ ih
    rw [List.map_cons, List.flatMap_cons]
    by_cases hsign : plainSpelling c = [plainSign c]
    · rw [hsign]
      exact .keep _ ih
    · unfold plainSpelling at hsign ⊢
      split_ifs at hsign ⊢ with hroot hpi hstar hminus hslash hopen hclose
      · subst hroot
        exact hpiece (by decide) (by decide)
      · subst hpi
        exact hpiece (by decide) (by decide)
      · exact absurd (by simp [plainSign, hstar]) hsign
      · exact absurd (by simp [plainSign, hminus]) hsign
      · exact absurd (by simp [plainSign, hslash]) hsign
      · rcases hopen with rfl | rfl <;> exact hpiece (by decide) (by decide)
      · rcases hclose with rfl | rfl <;> exact hpiece (by decide) (by decide)
      · exact absurd (by simp [plainSign, hstar, hminus, hslash]) hsign

theorem sameRows_lowerPi (afterLetter : Bool) (cs : List Char) : SameRows o cs (lowerPi afterLetter cs) := by
  fun_induction lowerPi afterLetter cs with
  | case1 => exact .nil
  | case2 afterLetter i cs hpi ih =>
    have hi : i = 'I' ∨ i = 'i' := by
      simp only [Bool.and_eq_true, Bool.or_eq_true, beq_iff_eq] at hpi
      exact hpi.1.2
    have hletters : ∀ c ∈ ['P', i], Besides o c := besides_of_forall ho (by rcases hi with rfl | rfl <;> decide)
    exact .piece (v := ['P', i]) (w := ['p', 'i']) ⟨by simp, hletters⟩ ⟨by simp, besides_of_forall ho (by decide)⟩ ih
  | case3 afterLetter i cs hpi ih => exact .keep 'P' ih
  | case4 afterLetter c cs hp ih => exact .keep c ih

theorem sameRows_setOffLetters (cs : List Char) : SameRows o cs (setOffLetters cs) := by
  fun_induction setOffLetters cs with
  | case1 => exact .nil
  | case2 d l cs hset ih =>
    simp only [Bool.and_eq_true] at hset
    have hd : Besides o d := besides_of_isDecimalDigit ho hset.1.1
    have hl : Besides o l := by
      have hletter : l = 'e' ∨ l = 'E' ∨ l = 'j' ∨ l = 'J' := by simpa [isLiteralLetter, or_assoc] using hset.1.2
      refine (besides_of_forall ho ?_ : ∀ c ∈ [l], Besides o c) l List.mem_cons_self
      rcases hletter with rfl | rfl | rfl | rfl <;> decide
    by_cases hstar : o = '*'
    · subst hstar
      exact .single hd hl ih
    · have hsign : Besides o '*' := ⟨fun heq => hstar heq.symm, by decide⟩
      exact .piece (v := [d, l]) (w := [d, '*', l]) (by simp [hd, hl]) (by simp [hd, hl, hsign]) ih
  | case3 d l cs hset ih => exact .keep d ih
  | case4 c => exact .keep c .nil

/-- The rows of a sign in a plain text are those of the signs that are displayed for it. -/
theorem infix_plain_iff (cs : List Char) (n : Nat) :
    List.replicate (n + 2) o <:+: withoutBlanks (plain cs) ↔
      List.replicate (n + 2) o <:+: (withoutBlanks cs).map plainSign := by
  have hrows {ds es : List Char} (h : SameRows o ds es) :
      List.replicate (n + 2) o <:+: withoutBlanks es ↔ List.replicate (n + 2) o <:+: withoutBlanks ds :=
    ((h.withoutBlanks (isBlank_operationSign ho)).infix_iff n).symm
  rw [plain, hrows (sameRows_setOffLetters ho _), hrows (sameRows_lowerPi ho false _), hrows (sameRows_plainSpelling ho _),
    withoutBlanks_map_plainSign, withoutBlanks_trimChars]

end Plain

end AlgebraTutor.Text
