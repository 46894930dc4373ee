import AlgebraTutor.Decimal.Double

/-!
# Settings

What the tutor may be told to do differently: how often it multiplies out, where it samples a difference, and
how near to zero counts as zero.
-/

namespace AlgebraTutor

/-- The settings of the tutor; the probes and the tolerance are doubles. -/
structure Config where
  maxExpansions : Nat
  probes : List Rat
  tolerance : Rat

/-- The settings that the tutor has when it is told nothing. -/
def Config.standard : Config :=
  ⟨3, [0, 1, 2, -1, 5, 10], (Decimal.nearestValue? (1 / 10000000000)).getD 0⟩

end AlgebraTutor
