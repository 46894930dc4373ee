import Mathlib.Algebra.Order.Field.Rat
import AlgebraTutor.Proofs.Text.Numeral
import AlgebraTutor.Tree.Printer

/-!
# Decimals as they are written

A decimal of digits, a point and digits, and the fraction that it is exactly.
-/

namespace AlgebraTutor.Text

/-- A decimal with digits on both sides of its point. -/
structure DecimalNumeral where
  whole : List Char
  fraction : List Char
  whole_ne_nil : whole ≠ []
  fraction_ne_nil : fraction ≠ []
  isDigit_whole : ∀ c ∈ whole, c.isDigit = true
  isDigit_fraction : ∀ c ∈ fraction, c.isDigit = true

namespace DecimalNumeral

/-- The characters of a decimal. -/
def chars (d : DecimalNumeral) : List Char :=
  d.whole ++ '.' :: d.fraction

/-- The number that a decimal stands for. -/
def value (d : DecimalNumeral) : ℚ :=
  numeralValue 10 (d.whole ++ d.fraction) / 10 ^ d.fraction.length

/-- Neither side of the point has more digits than a number may have to be read. -/
def IsShort (d : DecimalNumeral) : Prop :=
  d.whole.length ≤ Tree.digitLimit ∧ d.fraction.length ≤ Tree.digitLimit

end DecimalNumeral

end AlgebraTutor.Text
