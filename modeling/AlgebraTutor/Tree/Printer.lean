import AlgebraTutor.Decimal.Shortest
import AlgebraTutor.Tree.Basic

/-!
# Writing a tree

A tree is written as a learner would write it: `3x` for a product of a number and a symbol, `a * b` for
every other product, powers with `^`, and spaces around the signs of a sum only. An integer is written
in full and any other number as the shortest decimal of the nearest double.
-/

namespace AlgebraTutor.Tree

/-- The most digits that an integer may have to be written or read. -/
def digitLimit : Nat := 4300

/-- The digits of an integer with its sign, within the limit. -/
def integerChars (n : Int) : Answer (List Char) :=
  let digits := Nat.toDigits 10 n.natAbs
  if digitLimit < digits.length then .error .digitLimit
  else .ok (if n < 0 then '-' :: digits else digits)

/-- The text of a number. -/
def numberChars (value : Rat) : Answer (List Char) :=
  if value.den = 1 then integerChars value.num
  else match Decimal.textOfNearest? value with
    | some text => .ok text
    | none => .error .floatRange

/-- The letters that would fuse with the digit before them into another number literal. -/
def fusesWithDigits (name : String) : Bool :=
  name == "e" || name == "E" || name == "j" || name == "J"

/-- Is it a symbol that may follow a number directly? -/
def followsNumber : Tree → Bool
  | .symbol name => !fusesWithDigits name
  | _ => false

/-- Does a product read naturally without a product sign, as `3x` and `3x^2` do? -/
def isImplicitProduct : Tree → Tree → Answer Bool
  | .const _, .apply .pow (base :: _) => .ok base.followsNumber
  | .const _, .apply .pow [] => .error .missingOperand
  | .const _, right => .ok right.followsNumber
  | _, _ => .ok false

/-- Join texts by a separator. -/
def joinChars (separator : List Char) : List (List Char) → List Char
  | [] => []
  | [t] => t
  | t :: u :: ts => t ++ separator ++ joinChars separator (u :: ts)

mutual

/-- The text of a tree, character by character. -/
def chars : Tree → Answer (List Char)
  | .const value => numberChars value
  | .symbol name => .ok name.toList
  | .paren content => do
    let inner ← chars content
    return '(' :: inner ++ [')']
  | .apply (.call name) args => do
    let inner ← charsAll args
    return name.toList ++ '(' :: joinChars [',', ' '] inner ++ [')']
  | .apply .sub [t] => do
    let inner ← chars t
    return '-' :: inner
  | .apply op [left, right] => do
    let implicit ← if op = .mul then isImplicitProduct left right else .ok false
    let l ← chars left
    let r ← chars right
    match op with
    | .add => return l ++ [' ', '+', ' '] ++ r
    | .sub => return l ++ [' ', '-', ' '] ++ r
    | .mul => return if implicit then l ++ r else l ++ [' ', '*', ' '] ++ r
    | .div => return l ++ '/' :: r
    | .pow => return l ++ '^' :: r
    | .call _ => return l ++ r
  | .apply _ _ => .error .misshapen

/-- The texts of several trees. -/
def charsAll : List Tree → Answer (List (List Char))
  | [] => .ok []
  | t :: ts => do
    let c ← chars t
    let cs ← charsAll ts
    return c :: cs

end

/-- The text of a tree. -/
def text (t : Tree) : Answer String := do
  let cs ← chars t
  return String.ofList cs

end AlgebraTutor.Tree
