import AlgebraTutor.Reader.Token

/-!
# Implicit products

Two operands side by side are a product. An operand ends with a closing parenthesis or a word that
cannot be applied; one begins with an opening parenthesis or any word. A word after a dot ends none.
-/

namespace AlgebraTutor.Reader

/-- Does an operand end with the token? -/
def endsOperand (afterDot : Bool) : Token → Bool
  | .mark .closeParen => true
  | .word name => !afterDot && !isCallable name
  | _ => false

/-- Does an operand begin with the token? -/
def beginsOperand : Token → Bool
  | .mark .openParen => true
  | .word _ => true
  | _ => false

/-- Write a product sign between operands that stand side by side. -/
def insertProducts (afterDot : Bool) : List Token → List Token
  | [] => []
  | [t] => [t]
  | t :: u :: ts =>
    let rest := insertProducts (t == .mark .dot) (u :: ts)
    if endsOperand afterDot t && beginsOperand u then t :: .mark .star :: rest else t :: rest

end AlgebraTutor.Reader
