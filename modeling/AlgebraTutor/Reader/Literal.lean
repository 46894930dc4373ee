import AlgebraTutor.Text.Digit
import AlgebraTutor.Tree.Printer

/-!
# Number literals

The spellings of a number: decimal integers, integers in base two, eight and sixteen, and decimals with a
point, an exponent or both. A literal keeps its digits; its value is an exact rational.
-/

namespace AlgebraTutor.Reader

/-- A number as it is spelled. -/
inductive Literal
  | integer (base : Nat) (digits : List Char)
  | decimal (whole fraction : List Char) (negativeExponent : Bool) (exponent : List Char)
deriving Repr, DecidableEq

namespace Literal

/-- Split off the digits that a text begins with. -/
def spanDigits (isDigit : Char → Bool) (cs : List Char) : List Char × List Char :=
  (cs.takeWhile isDigit, cs.dropWhile isDigit)

/-- The sign that an exponent begins with, if it has one, and what follows. -/
def exponentSign : List Char → Bool × List Char
  | '-' :: cs => (true, cs)
  | '+' :: cs => (false, cs)
  | cs => (false, cs)

/-- The exponent that a text begins with, if it is complete: its sign, its digits and the rest. -/
def exponent? : List Char → Option (Bool × List Char × List Char)
  | c :: cs =>
    if c == 'e' || c == 'E' then
      let (isNegative, cs) := exponentSign cs
      let (ds, rest) := spanDigits Char.isDigit cs
      if ds.isEmpty then none else some (isNegative, ds, rest)
    else none
  | [] => none

/-- The decimal with an exponent or without, after its point and the digits behind it. -/
def decimalWith (whole fraction cs : List Char) : Literal × List Char :=
  match exponent? cs with
  | some (isNegative, ds, rest) => (.decimal whole fraction isNegative ds, rest)
  | none => (.decimal whole fraction false [], cs)

/-- The decimal that a text begins with: one with a point, or an integer with an exponent. -/
def decimal? (cs : List Char) : Option (Literal × List Char) :=
  let (whole, rest) := spanDigits Char.isDigit cs
  match rest with
  | '.' :: r =>
    let (fraction, r) := spanDigits Char.isDigit r
    if whole.isEmpty && fraction.isEmpty then none else some (decimalWith whole fraction r)
  | r =>
    if whole.isEmpty then none
    else (exponent? r).map fun (isNegative, ds, r) => (.decimal whole [] isNegative ds, r)

/-- The letters that announce a base, with the base and its digits. -/
def base? (c : Char) : Option (Nat × (Char → Bool)) :=
  if c == 'x' || c == 'X' then some (16, Text.isHexDigit)
  else if c == 'b' || c == 'B' then some (2, Text.isBinaryDigit)
  else if c == 'o' || c == 'O' then some (8, Text.isOctalDigit)
  else none

/-- The integer in another base than ten that a text begins with. -/
def based? : List Char → Option (Literal × List Char)
  | '0' :: c :: cs =>
    match base? c with
    | some (base, isDigit) =>
      let (ds, rest) := spanDigits isDigit cs
      if ds.isEmpty then none else some (.integer base ds, rest)
    | none => none
  | _ => none

/-- The decimal integer that a text begins with: a row of zeros, or digits that begin with none. -/
def integer? (cs : List Char) : Option (Literal × List Char) :=
  match cs with
  | '0' :: _ =>
    let (ds, rest) := spanDigits (· == '0') cs
    some (.integer 10 ds, rest)
  | _ =>
    let (ds, rest) := spanDigits Char.isDigit cs
    if ds.isEmpty then none else some (.integer 10 ds, rest)

/-- An imaginary mark after a literal. -/
def imaginaryMark? (found : Literal × List Char) : Option (Literal × List Char) :=
  match found.2 with
  | c :: rest => if c == 'j' || c == 'J' then some (found.1, rest) else none
  | [] => none

/-- The whole row of digits that a text begins with. -/
def allDigits? (cs : List Char) : Option (Literal × List Char) :=
  let (ds, rest) := spanDigits Char.isDigit cs
  if ds.isEmpty then none else some (.integer 10 ds, rest)

/-- The literal that a text begins with, whether it is imaginary, and the rest; an imaginary reading comes first, then a decimal one. -/
def scan? (cs : List Char) : Option (Literal × Bool × List Char) :=
  match (allDigits? cs).bind imaginaryMark? with
  | some (l, rest) => some (l, true, rest)
  | none =>
    match decimal? cs with
    | some found =>
      match imaginaryMark? found with
      | some (l, rest) => some (l, true, rest)
      | none => some (found.1, false, found.2)
    | none =>
      match based? cs with
      | some (l, rest) => some (l, false, rest)
      | none => (integer? cs).map fun (l, rest) => (l, false, rest)

/-- Can the literal stand in an expression? A decimal integer has no leading zero before another digit, and no more digits than the limit. -/
def isWellFormed : Literal → Bool
  | .integer 10 ds => ds.all (· == '0') || (ds.head? != some '0' && ds.length ≤ Tree.digitLimit)
  | _ => true

/-- The value of a literal, unless it takes more digits than the limit. -/
def value? : Literal → Option Rat
  | .integer base ds =>
    let n := Text.numeralValue base ds
    if Tree.digitLimit < (Nat.toDigits 10 n).length then none else some n
  | .decimal whole fraction isNegative ds =>
    if Tree.digitLimit < whole.length || Tree.digitLimit < fraction.length || Tree.digitLimit < ds.length then none
    else
      let n := Text.numeralValue 10 (whole ++ fraction)
      let e := Text.numeralValue 10 ds
      if isNegative then some (mkRat n (Nat.pow 10 (fraction.length + e)))
      else some (mkRat (n * Nat.pow 10 e) (Nat.pow 10 fraction.length))

end Literal

end AlgebraTutor.Reader
