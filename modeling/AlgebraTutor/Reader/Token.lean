import AlgebraTutor.Reader.Literal
import AlgebraTutor.Text.Letters

/-!
# Tokens

The words, numbers and marks of a plain text. A number becomes a call of the word `integer` or `decimal` on
its literal, so that the rules about neighbouring operands see one kind of operand only. A word in which letters
and digits are fused is no variable: its letters become single letters and its digits a call of the
unknown word `Number`, which the reader refuses by that name.
-/

namespace AlgebraTutor.Reader

/-- The marks of an expression. -/
inductive Mark
  | plus
  | minus
  | star
  | slash
  | caret
  | doubleStar
  | doubleSlash
  | openParen
  | closeParen
  | comma
  | dot
  | ellipsis
deriving Repr, DecidableEq

/-- The smallest parts of an expression. -/
inductive Token
  | word (name : String)
  | literal (value : Literal)
  | quoted (text : String)
  | mark (m : Mark)
  | finish
deriving Repr, DecidableEq

/-- The parts of a text before words and numbers are spelled out. -/
inductive Lexeme
  | word (name : List Char)
  | number (value : Literal) (isImaginary : Bool)
  | mark (m : Mark)
deriving Repr, DecidableEq

/-- The mark that is written with a single character. -/
def markOf? (c : Char) : Option Mark :=
  if c = '+' then some .plus
  else if c = '-' then some .minus
  else if c = '*' then some .star
  else if c = '/' then some .slash
  else if c = '^' then some .caret
  else if c = '(' then some .openParen
  else if c = ')' then some .closeParen
  else if c = ',' then some .comma
  else if c = '.' then some .dot
  else none

/-- The mark that a text begins with, the longest one first. -/
def mark? : List Char → Option (Mark × List Char)
  | '*' :: '*' :: cs => some (.doubleStar, cs)
  | '/' :: '/' :: cs => some (.doubleSlash, cs)
  | '.' :: '.' :: '.' :: cs => some (.ellipsis, cs)
  | c :: cs => (markOf? c).map fun m => (m, cs)
  | [] => none

/-- The lexeme that a text begins with. -/
def lexeme? (cs : List Char) : Option (Lexeme × List Char) :=
  match Literal.scan? cs with
  | some (l, isImaginary, rest) => some (.number l isImaginary, rest)
  | none =>
    match mark? cs with
    | some (m, rest) => some (.mark m, rest)
    | none =>
      match cs with
      | c :: _ =>
        if c.isAlpha then some (.word (cs.takeWhile Char.isAlphanum), cs.dropWhile Char.isAlphanum) else none
      | [] => none

/-- The lexemes of a text, with blanks between them left out; every step must leave a shorter text. -/
def lexemesFrom : Nat → List Char → Option (List Lexeme)
  | _, [] => some []
  | 0, _ => none
  | n + 1, c :: cs =>
    if c == ' ' || c == '\t' then lexemesFrom n cs
    else match lexeme? (c :: cs) with
      | some (l, rest) => (lexemesFrom n rest).map (l :: ·)
      | none => none

/-- The lexemes of a text. -/
def lexemes? (cs : List Char) : Option (List Lexeme) :=
  lexemesFrom cs.length cs

/-- Are there as many opening as closing parentheses? -/
def isBalanced (ls : List Lexeme) : Bool :=
  ls.count (.mark .openParen) == ls.count (.mark .closeParen)

/-- The words that a number or a letter is a call of. -/
def operandWords : List String :=
  ["integer", "decimal", "letter"]

/-- Can the word be applied to what follows it? -/
def isCallable (name : String) : Bool :=
  Text.functionNames.contains name || operandWords.contains name

/-- A call of a word on one token. -/
def callOn (name : String) (t : Token) : List Token :=
  [.word name, .mark .openParen, t, .mark .closeParen]

/-- A number as a call on its literal, times `I` if it is imaginary. -/
def spellNumber (l : Literal) (isImaginary : Bool) : List Token :=
  callOn (match l with | .integer _ _ => "integer" | .decimal _ _ _ _ => "decimal") (.literal l) ++
    if isImaginary then [.mark .star, .word "I"] else []

/-- The letters and rows of digits of a fused word. -/
def spellFused (vars : List Char) : Nat → List Char → List Token
  | 0, _ => []
  | _, [] => []
  | n + 1, c :: cs =>
    if c.isDigit then
      callOn "Number" (.quoted (String.ofList (c :: cs.takeWhile Char.isDigit))) ++
        spellFused vars n (cs.dropWhile Char.isDigit)
    else
      (if vars.contains c || c == 'E' then [.word c.toString] else callOn "letter" (.quoted c.toString)) ++
        spellFused vars n cs

/-- Is the word a variable or a reserved name? -/
def isKnownWord (vars : List Char) (name : List Char) : Bool :=
  Text.isReserved name || vars.any fun c => name == [c]

/-- The tokens of lexemes; a word right after a dot is left as it is. -/
def spell (vars : List Char) (afterDot : Bool) : List Lexeme → List Token
  | [] => []
  | .word name :: ls =>
    (if afterDot || isKnownWord vars name then [.word (String.ofList name)]
      else spellFused vars name.length name) ++ spell vars false ls
  | .number l isImaginary :: ls => spellNumber l isImaginary ++ spell vars false ls
  | .mark m :: ls => .mark m :: spell vars (m == .dot) ls

/-- The tokens of a plain text in which products of variables are spelled out, if it has balanced parentheses. -/
def tokens? (vars : List Char) (cs : List Char) : Option (List Token) :=
  (lexemes? cs).bind fun ls => if isBalanced ls then some (spell vars false ls) else none

end AlgebraTutor.Reader
