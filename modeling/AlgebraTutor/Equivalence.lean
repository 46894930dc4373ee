import AlgebraTutor.Canonical.Form
import AlgebraTutor.Polynomial.Rounded

/-!
# Equivalence

Two inputs are equivalent if they have the same tree, or if their difference simplifies to zero, or if the
difference, in one unknown at most, is near zero at all probes. An input that cannot be read is equivalent to
nothing.
-/

namespace AlgebraTutor

/-- Does a difference vanish? It is sampled only if it has one unknown at most; without a real value at a
probe it does not vanish. -/
def isNegligible (config : Config) (difference : Tree) : Answer Bool := do
  let d ← difference.simplify
  if ← d.isWrittenAsZero then return true
  else
    let names := d.unknowns
    if 1 < names.length then return false
    else match d.polynomial? with
      | some p => return p.vanishesAt config.probes config.tolerance
      | none =>
        let row := Binding.row (config.probes.map Decimal.toFloat)
        match d.sample (names.map fun name => (name, row)) with
        | .ok samples =>
          return samples.numbers.all fun x => x.abs < Decimal.toFloat config.tolerance
        | .error failure => if failure.isArithmetic then return false else .error failure

/-- The difference of two texts as a tree. -/
def readDifference (a b : String) : Answer Tree :=
  Tree.ofText (Canonical.differenceText a b)

/-- Are two inputs equivalent? The answer is a failure if one of them cannot be read. -/
def judgeEquivalent (config : Config) (a b : String) : Answer Bool := do
  let first ← Input.ofText a
  let second ← Input.ofText b
  if first.isEquation || second.isEquation then
    let left ← canonicalTree config a
    let right ← canonicalTree config b
    if left = right then return true
    else
      let leftText ← left.text
      let rightText ← right.text
      let d ← readDifference leftText rightText
      isNegligible config d
  else
    let left ← Tree.ofText first.trimmed
    let right ← Tree.ofText second.trimmed
    if left = right then return true
    else
      let d ← readDifference first.trimmed second.trimmed
      isNegligible config d

/-- Are two inputs equivalent? -/
def equivalent (config : Config) (a b : String) : Bool :=
  match judgeEquivalent config a b with
  | .ok verdict => verdict
  | .error _ => false

end AlgebraTutor
