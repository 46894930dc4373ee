import AlgebraTutor.Text.Blank

/-!
# The arrangement of a text

Two texts are the same up to arrangement if, without blanks and product signs, they have the same terms in any
order. Terms are cut at the signs outside all parentheses that follow no operator.
-/

namespace AlgebraTutor.Text

/-- A text without what is only for show: blanks and product signs. -/
def bareText (cs : List Char) : List Char :=
  cs.filter fun c => !(isBlank c || c == '*')

/-- May a sign after this character begin a term? -/
def endsTerm (c : Char) : Bool :=
  !(c == '+' || c == '-' || c == '*' || c == '/' || c == '^')

/-- The depth of parentheses after one more character. -/
def depthAfter (depth : Int) (c : Char) : Int :=
  if c = '(' then depth + 1 else if c = ')' then depth - 1 else depth

/-- Does a sign, at a depth and after some characters of a term, begin the next term? -/
def beginsTerm (depth : Int) (c : Char) (reversed : List Char) : Bool :=
  (c == '+' || c == '-') && depth == 0 &&
    match reversed with
    | [] => false
    | last :: _ => endsTerm last

/-- Cut a text into terms; `reversed` is what has been read of the current one. -/
def cutTerms (depth : Int) (reversed : List Char) : List Char → List (List Char)
  | [] => if reversed.isEmpty then [] else [reversed.reverse]
  | c :: cs =>
    let depth' := depthAfter depth c
    if beginsTerm depth' c reversed then reversed.reverse :: cutTerms depth' [c] cs
    else cutTerms depth' (c :: reversed) cs

/-- Write the sign of a term, if it has none. -/
def signTerm : List Char → List Char
  | '+' :: cs => '+' :: cs
  | '-' :: cs => '-' :: cs
  | cs => '+' :: cs

/-- The terms of a text, each with its sign. -/
def termTexts (cs : List Char) : List (List Char) :=
  (cutTerms 0 [] cs).map signTerm

/-- Insert a text into an increasing list. -/
def insertSorted (s : List Char) : List (List Char) → List (List Char)
  | [] => [s]
  | t :: ts => if t < s then t :: insertSorted s ts else s :: t :: ts

/-- Sort texts. -/
def sortTexts (ts : List (List Char)) : List (List Char) :=
  ts.foldr insertSorted []

/-- Have two texts the same terms, up to blanks, product signs and the order of terms? -/
def sameArrangement (a b : List Char) : Bool :=
  a == b || bareText a == bareText b ||
    sortTexts (termTexts (bareText a)) == sortTexts (termTexts (bareText b))

end AlgebraTutor.Text
