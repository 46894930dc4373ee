import AlgebraTutor.Reader.Application
import AlgebraTutor.Reader.Phrase
import AlgebraTutor.Reader.Product
import AlgebraTutor.Text.Display

/-!
# Reading an expression

From a learner's text to a tree: the plain text, its tokens, the tokens with every implicit product and
application written out, a phrase of the grammar, and the tree that the phrase stands for. Nothing is computed
on the way, so `9/3` and `4x - x` keep the shape that they were typed in.
-/

namespace AlgebraTutor

namespace Reader

/-- The operator that an operation of the grammar stands for; there is none for a rounded quotient. -/
def Operation.op? : Operation → Option Op
  | .add => some .add
  | .sub => some .sub
  | .mul => some .mul
  | .div => some .div
  | .pow => some .pow
  | .floorDiv => none

/-- The tree of a call on a literal, or of a letter in a call of its own. -/
def operandTree? (text : String) (function : String) (args : List Phrase) : Option (Answer Tree) :=
  if function = "integer" ∨ function = "decimal" then
    match args with
    | [.literal l] =>
      match l.value? with
      | some value => some (.ok (.const value))
      | none => some (.error .digitLimit)
    | _ => some (.error (.unreadable .noExpression text))
  else if function = "letter" then
    match args with
    | [.quoted letter] => some (.ok (.symbol letter))
    | _ => none
  else none

mutual

/-- The tree that a phrase stands for, where `vars` are the variables of the whole text. -/
def treeOf (text : String) (vars : List Char) : Phrase → Answer Tree
  | .name n =>
    if vars.any (fun c => n == c.toString) || Tree.isNamedConstant n then .ok (.symbol n)
    else .error (.unreadable (.unexpectedName n) text)
  | .call function args =>
    match operandTree? text function args with
    | some answer => answer
    | none =>
      if !Text.functionNames.contains function then .error (.unreadable .noExpression text)
      else if args.isEmpty then .error (.unreadable (.missingArgument function) text)
      else do
        let args ← treesOf text vars args
        return Tree.call function args
  | .negative operand => do
    let t ← treeOf text vars operand
    return t.negate
  | .positive operand => treeOf text vars operand
  | .binary operation left right =>
    match operation.op? with
    | none => .error (.unreadable .unsupportedOperator text)
    | some op => do
      let l ← treeOf text vars left
      let r ← treeOf text vars right
      return Tree.binary op l r
  | .literal _ | .quoted _ | .other => .error (.unreadable .noExpression text)

/-- The trees of the arguments of a call. -/
def treesOf (text : String) (vars : List Char) : List Phrase → Answer (List Tree)
  | [] => .ok []
  | p :: ps => do
    let t ← treeOf text vars p
    let ts ← treesOf text vars ps
    return t :: ts

end

/-- Is the character one that an expression may hold? -/
def isAllowed (c : Char) : Bool :=
  c.isAlphanum || [' ', '\t', '+', '-', '*', '/', '^', '(', ')', '.', ','].contains c

/-- The characters of a text that no expression may hold, in increasing order and each once. -/
def strangeCharacters (cs : List Char) : List Char :=
  (cs.filter fun c => !isAllowed c).foldl (fun found c => Text.insertLetter c found) []

/-- The phrase that a plain text spells. -/
def phrase? (vars : List Char) (cs : List Char) : Option Phrase :=
  (tokens? vars (Text.spellProducts vars cs)).bind fun ts =>
    (applications? (insertProducts false ts)).bind Phrase.ofTokens?

end Reader

/-- Read one expression, a text without an equals sign. -/
def Tree.ofText (text : String) : Answer Tree :=
  let cs := Text.plain text.toList
  if cs.isEmpty then .error (.unreadable .emptyText text)
  else
    let strange := Reader.strangeCharacters cs
    if !strange.isEmpty then .error (.unreadable (.invalidCharacters strange) (String.ofList cs))
    else
      let vars := Text.variableLetters cs
      match Reader.phrase? vars cs with
      | none => .error (.unreadable .ungrammatical text)
      | some p => Reader.treeOf text vars p

end AlgebraTutor
