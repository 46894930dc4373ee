import AlgebraTutor.Reader.Literal

/-!
# The digits of a number

The digits that a number is written with are read back as the number, and none of them is a zero in front of others.
-/

namespace AlgebraTutor

namespace Text

theorem isDigit_of_mem_digits {n : Nat} {c : Char} (hc : c ∈ Nat.toDigits 10 n) : c.isDigit = true :=
  Nat.isDigit_of_mem_toDigits (by decide) (by decide) hc

theorem numeralValue_digits (n : Nat) : numeralValue 10 (Nat.toDigits 10 n) = n := by
  have hfold (cs : List Char) (hcs : ∀ c ∈ cs, c.isDigit = true) (m : Nat) :
      cs.foldl (fun n c => n * 10 + digitValue c) m = Nat.ofDigitChars 10 cs m := by
    induction cs generalizing m with
    | nil => rfl
    | cons c cs ih =>
      have hc : digitValue c = c.toNat - '0'.toNat := by simp [digitValue, hcs c List.mem_cons_self]
      rw [List.foldl_cons, Nat.ofDigitChars_cons, ih fun d hd => hcs d (List.mem_cons_of_mem c hd), hc, Nat.mul_comm]
  rw [numeralValue, hfold _ fun c hc => isDigit_of_mem_digits hc, Nat.ofDigitChars_ten_toDigits]

theorem head?_digits {n : Nat} (hn : n ≠ 0) : (Nat.toDigits 10 n).head? ≠ some '0' := by
  induction n using Nat.strongRecOn with
  | ind n ih =>
    rw [Nat.toDigits_eq_if (by decide)]
    split
    · rename_i hlt
      have hdigits : ∀ n < 10, n ≠ 0 → n.digitChar ≠ '0' := by decide
      simpa using hdigits n hlt hn
    · rw [List.head?_append, List.head?_eq_some_head Nat.toDigits_ne_nil, Option.some_or, ← List.head?_eq_some_head]
      exact ih (n / 10) (by omega) (by omega)

end Text

namespace Reader.Literal

theorem isWellFormed_digits {n : Nat} (hlength : (Nat.toDigits 10 n).length ≤ Tree.digitLimit) :
    (Literal.integer 10 (Nat.toDigits 10 n)).isWellFormed = true := by
  by_cases hn : n = 0
  · subst hn
    decide
  · simp [isWellFormed, Text.head?_digits hn, hlength]

theorem value?_digits {n : Nat} (hlength : (Nat.toDigits 10 n).length ≤ Tree.digitLimit) :
    (Literal.integer 10 (Nat.toDigits 10 n)).value? = some (n : Rat) := by
  simp [value?, Text.numeralValue_digits, Nat.not_lt.mpr hlength]

end Reader.Literal

end AlgebraTutor
