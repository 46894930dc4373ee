import AlgebraTutor.Tree.Printer

/-!
# Terms and factors

The outermost sum of a tree as a list of signed terms, and the outermost product as a list of factors.
Terms within parentheses below the root stay whole; `writeTerms` writes a list of terms as a sum again.
-/

namespace AlgebraTutor

/-- The sign that a term carries in a sum. -/
inductive Sign
  | plus
  | minus
deriving Repr, DecidableEq

/-- The opposite sign. -/
def Sign.flip : Sign → Sign
  | .plus => .minus
  | .minus => .plus

/-- The sign as a number. -/
def Sign.toInt : Sign → Int
  | .plus => 1
  | .minus => -1

/-- The sign as it is written. -/
def Sign.char : Sign → Char
  | .plus => '+'
  | .minus => '-'

/-- A term of a sum with its sign. -/
abbrev Term := Tree × Sign

namespace Tree

/-- The terms of a chain of sums, differences and signs; `sign` is the one that the whole chain carries. -/
def termsFrom (sign : Sign) : Tree → List Term
  | .apply .add [left, right] => termsFrom sign left ++ termsFrom sign right
  | .apply .sub [left, right] => termsFrom sign left ++ termsFrom sign.flip right
  | .apply .sub [t] => termsFrom sign.flip t
  | t => [(t, sign)]

/-- The signed terms of a tree, from left to right. -/
def terms (t : Tree) : List Term :=
  termsFrom .plus t.stripParens

/-- The text of a term without the minus it begins with, and its sign with that minus taken in. -/
def signedChars (term : Term) : Answer (List Char × Sign) := do
  match ← chars term.1 with
  | '-' :: rest => return (rest, term.2.flip)
  | text => return (text, term.2)

/-- The texts of the terms of a sum after its first one. -/
def laterTerms : List Term → Answer (List Char)
  | [] => .ok []
  | term :: rest => do
    let (text, sign) ← signedChars term
    let later ← laterTerms rest
    return ' ' :: sign.char :: ' ' :: text ++ later

/-- Write signed terms as one sum. -/
def writeTerms : List Term → Answer (List Char)
  | [] => .ok []
  | term :: rest => do
    let (text, sign) ← signedChars term
    let later ← laterTerms rest
    return (if sign = .plus then text else '-' :: text) ++ later

/-- The factors of a tree whose outermost parentheses are gone already. -/
def factorsFrom : Tree → List Tree
  | .paren content => factorsFrom content
  | .apply .mul [left, right] => factorsFrom left ++ factorsFrom right
  | t => [t]

/-- The factors of a chain of products, from left to right, each within its parentheses. -/
def factors (t : Tree) : List Tree :=
  factorsFrom t

end Tree

end AlgebraTutor
