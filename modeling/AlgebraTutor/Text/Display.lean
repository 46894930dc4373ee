import AlgebraTutor.Text.Blank
import AlgebraTutor.Text.Digit

/-!
# Display characters

A learner may type, or paste, the signs of printed mathematics: `√`, `π`, `·`, `×`, `−`, `÷`,
square brackets and braces, `Pi` or `PI`. Here they become the plain signs that the reader knows,
and a letter that would fuse with the digit before it into a number literal is set off by a
product sign.
-/

namespace AlgebraTutor.Text

/-- The plain spelling of one display character. -/
def plainSpelling (c : Char) : List Char :=
  if c = '√' then "sqrt".toList
  else if c = 'π' then "(pi)".toList
  else if c = '·' ∨ c = '×' then ['*']
  else if c = '−' then ['-']
  else if c = '÷' then ['/']
  else if c = '[' ∨ c = '\x7b' then ['(']
  else if c = ']' ∨ c = '\x7d' then [')']
  else [c]

/-- Does a text begin with something other than a letter? -/
def startsOutsideLetters : List Char → Bool
  | [] => true
  | c :: _ => !c.isAlpha

/-- Write `PI` and `Pi` as `pi` where no letter stands beside them; `afterLetter` says whether one stands before. -/
def lowerPi (afterLetter : Bool) : List Char → List Char
  | [] => []
  | 'P' :: i :: cs =>
    if !afterLetter && (i == 'I' || i == 'i') && startsOutsideLetters cs then 'p' :: 'i' :: lowerPi true cs
    else 'P' :: lowerPi true (i :: cs)
  | c :: cs => c :: lowerPi c.isAlpha cs

/-- The letters that may follow a digit within a number literal. -/
def isLiteralLetter (c : Char) : Bool :=
  c == 'e' || c == 'E' || c == 'j' || c == 'J'

/-- Does a text begin with a small letter? -/
def startsWithLower : List Char → Bool
  | [] => false
  | c :: _ => c.isLower

/-- Write a product sign between a digit and a lone letter that would otherwise end its literal. -/
def setOffLetters : List Char → List Char
  | [] => []
  | d :: l :: cs =>
    if isDecimalDigit d && isLiteralLetter l && !startsWithLower cs then d :: '*' :: l :: setOffLetters cs
    else d :: setOffLetters (l :: cs)
  | [c] => [c]

/-- The text as the reader takes it: trimmed, in plain characters, with no letter fused to a digit. -/
def plain (cs : List Char) : List Char :=
  setOffLetters (lowerPi false ((trimChars cs).flatMap plainSpelling))

end AlgebraTutor.Text
