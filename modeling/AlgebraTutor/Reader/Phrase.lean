import AlgebraTutor.Reader.Token

/-!
# Phrases

The grammar of expressions over tokens: sums, then products and quotients, then signs, then powers, which are
right-associative and take a signed exponent, then calls. Lists in parentheses, dotted names and
spread arguments are phrases too, though no expression comes of them.
-/

namespace AlgebraTutor.Reader

/-- The binary operations of the grammar. -/
inductive Operation
  | add
  | sub
  | mul
  | div
  | floorDiv
  | pow
deriving Repr, DecidableEq

/-- What the grammar accepts; `other` stands for every phrase that is no expression. -/
inductive Phrase
  | name (n : String)
  | literal (l : Literal)
  | quoted (text : String)
  | call (function : String) (args : List Phrase)
  | negative (operand : Phrase)
  | positive (operand : Phrase)
  | binary (op : Operation) (left right : Phrase)
  | other
deriving Repr

/-- Join marks that stand side by side without a blank into the longest marks that they spell. -/
def fuseMarks : List Token → List Token
  | .mark .star :: .mark .star :: ts => .mark .doubleStar :: fuseMarks ts
  | .mark .slash :: .mark .slash :: ts => .mark .doubleSlash :: fuseMarks ts
  | .mark .dot :: .mark .dot :: .mark .dot :: ts => .mark .ellipsis :: fuseMarks ts
  | t :: ts => t :: fuseMarks ts
  | [] => []

/-- A mark as the single characters that it is written with; a caret is a power sign. -/
def splitMark : Token → List Token
  | .mark .caret | .mark .doubleStar => [.mark .star, .mark .star]
  | .mark .doubleSlash => [.mark .slash, .mark .slash]
  | .mark .ellipsis => [.mark .dot, .mark .dot, .mark .dot]
  | t => [t]

/-- The tokens as the grammar takes them, with every caret a power sign. -/
def grammarTokens (ts : List Token) : List Token :=
  fuseMarks (ts.flatMap splitMark)

namespace Phrase

/-- The operation of a sum that a mark stands for. -/
def additive? : Token → Option Operation
  | .mark .plus => some .add
  | .mark .minus => some .sub
  | _ => none

/-- The operation of a product that a mark stands for. -/
def multiplicative? : Token → Option Operation
  | .mark .star => some .mul
  | .mark .slash => some .div
  | .mark .doubleSlash => some .floorDiv
  | _ => none

/-- A phrase applied to arguments; only a name can be called, and only with plain arguments. -/
def applied (callee : Phrase) (args : List Phrase) (hasSpread : Bool) : Phrase :=
  match callee with
  | .name n => if hasSpread then .other else .call n args
  | _ => .other

mutual

/-- A sum. -/
def sum? : Nat → List Token → Option (Phrase × List Token)
  | 0, _ => none
  | n + 1, ts => (product? n ts).bind fun (p, ts) => sumTail? n p ts

/-- The rest of a sum that begins with `left`. -/
def sumTail? : Nat → Phrase → List Token → Option (Phrase × List Token)
  | 0, _, _ => none
  | _, left, [] => some (left, [])
  | n + 1, left, t :: ts =>
    match additive? t with
    | some op => (product? n ts).bind fun (right, ts) => sumTail? n (.binary op left right) ts
    | none => some (left, t :: ts)

/-- A product or quotient. -/
def product? : Nat → List Token → Option (Phrase × List Token)
  | 0, _ => none
  | n + 1, ts => (factor? n ts).bind fun (p, ts) => productTail? n p ts

/-- The rest of a product that begins with `left`. -/
def productTail? : Nat → Phrase → List Token → Option (Phrase × List Token)
  | 0, _, _ => none
  | _, left, [] => some (left, [])
  | n + 1, left, t :: ts =>
    match multiplicative? t with
    | some op => (factor? n ts).bind fun (right, ts) => productTail? n (.binary op left right) ts
    | none => some (left, t :: ts)

/-- A signed factor or a power. -/
def factor? : Nat → List Token → Option (Phrase × List Token)
  | 0, _ => none
  | n + 1, .mark .minus :: ts => (factor? n ts).map fun (p, ts) => (.negative p, ts)
  | n + 1, .mark .plus :: ts => (factor? n ts).map fun (p, ts) => (.positive p, ts)
  | n + 1, ts =>
    (atom? n ts).bind fun (base, ts) => (callTail? n base ts).bind fun (base, ts) =>
      match ts with
      | .mark .doubleStar :: ts => (factor? n ts).map fun (e, ts) => (.binary .pow base e, ts)
      | ts => some (base, ts)

/-- A name, a literal, or a phrase in parentheses. -/
def atom? : Nat → List Token → Option (Phrase × List Token)
  | 0, _ => none
  | _, .word w :: ts => some (.name w, ts)
  | _, .literal l :: ts => if l.isWellFormed then some (.literal l, ts) else none
  | _, .quoted text :: ts => some (.quoted text, ts)
  | _, .mark .ellipsis :: ts => some (.other, ts)
  | _, .mark .openParen :: .mark .closeParen :: ts => some (.other, ts)
  | n + 1, .mark .openParen :: ts =>
    (element? n ts).bind fun (p, isStarred, ts) =>
      match ts with
      | .mark .closeParen :: ts => if isStarred then none else some (p, ts)
      | .mark .comma :: ts => (listTail? n ts).map fun ts => (.other, ts)
      | _ => none
  | _, _ => none

/-- An element of a list in parentheses, and whether it is starred. -/
def element? : Nat → List Token → Option (Phrase × Bool × List Token)
  | 0, _ => none
  | n + 1, .mark .star :: ts => (sum? n ts).map fun (_, ts) => (.other, true, ts)
  | n + 1, ts => (sum? n ts).map fun (p, ts) => (p, false, ts)

/-- The rest of a list in parentheses after a comma. -/
def listTail? : Nat → List Token → Option (List Token)
  | 0, _ => none
  | _, .mark .closeParen :: ts => some ts
  | n + 1, ts =>
    (element? n ts).bind fun (_, _, ts) =>
      match ts with
      | .mark .closeParen :: ts => some ts
      | .mark .comma :: ts => listTail? n ts
      | _ => none

/-- The calls and dotted names after a phrase. -/
def callTail? : Nat → Phrase → List Token → Option (Phrase × List Token)
  | 0, _, _ => none
  | n + 1, _, .mark .dot :: .word _ :: ts => callTail? n .other ts
  | _, _, .mark .dot :: _ => none
  | n + 1, callee, .mark .openParen :: .mark .closeParen :: ts => callTail? n (applied callee [] false) ts
  | n + 1, callee, .mark .openParen :: ts =>
    (args? n [] false ts).bind fun (args, hasSpread, ts) => callTail? n (applied callee args hasSpread) ts
  | _, callee, ts => some (callee, ts)

/-- The arguments of a call and its closing parenthesis; `found` holds the earlier arguments in reverse. -/
def args? : Nat → List Phrase → Bool → List Token → Option (List Phrase × Bool × List Token)
  | 0, _, _, _ => none
  | n + 1, found, hasSpread, ts =>
    let next := fun (found : List Phrase) (hasSpread : Bool) (ts : List Token) =>
      match ts with
      | .mark .closeParen :: ts => some (found.reverse, hasSpread, ts)
      | .mark .comma :: .mark .closeParen :: ts => some (found.reverse, hasSpread, ts)
      | .mark .comma :: ts => args? n found hasSpread ts
      | _ => none
    match ts with
    | .mark .doubleStar :: ts => (sum? n ts).bind fun (_, ts) => next found true ts
    | .mark .star :: ts =>
      if hasSpread then none else (sum? n ts).bind fun (_, ts) => next (.other :: found) hasSpread ts
    | ts => if hasSpread then none else (sum? n ts).bind fun (p, ts) => next (p :: found) hasSpread ts

end

/-- After a comma outside parentheses, are there only phrases and commas? -/
def isPlainList : Nat → List Token → Bool
  | _, [] => true
  | 0, _ => false
  | n + 1, ts =>
    match sum? n ts with
    | some (_, []) => true
    | some (_, .mark .comma :: ts) => isPlainList n ts
    | _ => false

/-- The phrase that tokens spell, a list without parentheses included. -/
def ofTokens? (ts : List Token) : Option Phrase :=
  let ts := grammarTokens ts
  let fuel := 8 * ts.length + 8
  (sum? fuel ts).bind fun (p, rest) =>
    match rest with
    | [] => some p
    | .mark .comma :: rest => if isPlainList fuel rest then some .other else none
    | _ => none

end Phrase

end AlgebraTutor.Reader
