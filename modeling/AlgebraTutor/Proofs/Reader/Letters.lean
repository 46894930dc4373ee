import AlgebraTutor.Proofs.Reader.Derivation
import AlgebraTutor.Reader.Expression

/-!
# Letters that are no variables

A letter that a number literal has cut off its word is spelled as a call of its own, unless the same letter is a
variable of the text. A longer text has more variables, and then the letter is a word like any other. `Respelled`
relates the two spellings, and everything that follows the spelling of words respects the relation: the tree that is
read is the same.
-/

namespace AlgebraTutor.Reader

/-- The tokens with some of the letters in calls of their own, all of them among `vars`, spelled as words. -/
inductive Respelled (vars : List Char) : List Token → List Token → Prop
  | nil : Respelled vars [] []
  | keep {ts us : List Token} (t : Token) (hrest : Respelled vars ts us) : Respelled vars (t :: ts) (t :: us)
  | letter {ts us : List Token} {c : Char} (hc : c ∈ vars) (hrest : Respelled vars ts us) :
    Respelled vars (callOn "letter" (.quoted c.toString) ++ ts) (.word c.toString :: us)

namespace Respelled

variable {vars : List Char} {ts us : List Token}

theorem refl (ts : List Token) : Respelled vars ts ts := by
  induction ts with
  | nil => exact .nil
  | cons t ts ih => exact .keep t ih

theorem append {ts' us' : List Token} (hfirst : Respelled vars ts us) (hsecond : Respelled vars ts' us') :
    Respelled vars (ts ++ ts') (us ++ us') := by
  induction hfirst with
  | nil => exact hsecond
  | keep t _ ih => exact .keep t ih
  | letter hc _ ih => exact .letter hc ih

theorem of_mark {m : Mark} (h : Respelled vars (.mark m :: ts) us) :
    ∃ us', us = .mark m :: us' ∧ Respelled vars ts us' := by
  cases h with
  | keep _ hrest => exact ⟨_, rfl, hrest⟩

theorem head?_mark {m : Mark} (h : Respelled vars ts us) (hhead : us.head? = some (.mark m)) :
    ts.head? = some (.mark m) := by
  cases h with
  | nil => simp at hhead
  | keep t _ => exact hhead
  | letter => simp at hhead

end Respelled

/-! ### Spelling -/

theorem isDigit_of_isAlpha {c : Char} (hc : c.isAlpha = true) : c.isDigit = false := by
  delta Char.isAlpha Char.isUpper Char.isLower at hc
  simp only [Char.isDigit, Bool.or_eq_true, Bool.and_eq_true, decide_eq_true_eq, Bool.and_eq_false_iff,
    decide_eq_false_iff_not, ge_iff_le, UInt32.le_iff_toNat_le] at hc ⊢
  simp at hc ⊢
  omega

theorem isAlpha_of_isDigit {c : Char} (hc : c.isDigit = true) : c.isAlpha = false :=
  Bool.eq_false_iff.mpr fun hletter => by simp [isDigit_of_isAlpha hletter] at hc

section Spelling

variable {vars more : List Char} (hsub : ∀ c ∈ vars, c ∈ more)

include hsub

theorem respelled_spellFused (n : Nat) (cs : List Char) :
    Respelled more (spellFused vars n cs) (spellFused more n cs) := by
  induction n generalizing cs with
  | zero => exact .nil
  | succ n ih =>
    cases cs with
    | nil => exact .nil
    | cons c cs =>
      by_cases hdigit : c.isDigit = true
      · simp only [spellFused, hdigit, if_true]
        exact (Respelled.refl _).append (ih _)
      · simp only [spellFused, hdigit, Bool.false_eq_true, if_false]
        refine Respelled.append ?_ (ih cs)
        by_cases hvar : c ∈ vars
        · simp [hvar, hsub c hvar, Respelled.refl]
        · by_cases hE : c = 'E'
          · simp [hE, Respelled.refl]
          · by_cases hmore : c ∈ more
            · simpa [hvar, hE, hmore] using Respelled.letter hmore .nil
            · simp [hvar, hE, hmore, Respelled.refl]

theorem isKnownWord_mono {name : List Char} (hknown : isKnownWord vars name = true) : isKnownWord more name = true := by
  simp only [isKnownWord, Bool.or_eq_true, List.any_eq_true] at hknown ⊢
  exact hknown.imp_right fun ⟨c, hc, heq⟩ => ⟨c, hsub c hc, heq⟩

theorem respelled_spell (hletters : ∀ c ∈ more, c.isAlpha = true) (afterDot : Bool) (ls : List Lexeme) :
    Respelled more (spell vars afterDot ls) (spell more afterDot ls) := by
  induction ls generalizing afterDot with
  | nil => exact .nil
  | cons l ls ih =>
    cases l with
    | number l isImaginary => exact (Respelled.refl _).append (ih false)
    | mark m => exact .keep _ (ih _)
    | word name =>
      simp only [spell]
      refine Respelled.append ?_ (ih false)
      cases afterDot with
      | true => exact .refl _
      | false =>
        by_cases hknown : isKnownWord vars name = true
        · simp [hknown, isKnownWord_mono hsub hknown, Respelled.refl]
        · by_cases hmore : isKnownWord more name = true
          · -- the word is a single letter that only the longer text has as a variable
            simp only [isKnownWord, Bool.or_eq_true, List.any_eq_true, beq_iff_eq, not_or] at hknown hmore
            obtain ⟨c, hc, rfl⟩ := hmore.resolve_left hknown.1
            have hvar : c ∉ vars := fun h => hknown.2 ⟨c, h, rfl⟩
            have hE : c ≠ 'E' := fun h => hknown.1 (h ▸ rfl)
            have hdigit : c.isDigit = false := isDigit_of_isAlpha (hletters c hc)
            simpa [isKnownWord, hknown.1, hvar, hc, spellFused, hdigit, hE] using Respelled.letter hc .nil
          · simpa [hknown, hmore] using respelled_spellFused hsub name.length name

end Spelling

end AlgebraTutor.Reader
