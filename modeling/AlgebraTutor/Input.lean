import AlgebraTutor.Reader.Expression
import AlgebraTutor.Text.Blank

/-!
# What a learner submits

An expression, or an equation of two: the checks on a text before it is read, and its sides. A text that
passes them need not be readable; `Input.check` asks for that as well.
-/

namespace AlgebraTutor

/-- A text that is an expression or an equation, without the blanks around it and around its sides. -/
structure Input where
  trimmed : String
  equation : Option (String × String)
deriving Repr, DecidableEq

namespace Input

/-- Is it an equation? -/
def isEquation (p : Input) : Bool :=
  p.equation.isSome

/-- The sides of an equation, or the expression alone. -/
def sides (p : Input) : List String :=
  match p.equation with
  | some (left, right) => [left, right]
  | none => [p.trimmed]

/-- The operators that are a slip of the hand when doubled, or trebled. -/
def doubledOperators : List String :=
  ["++", "---", "//", "**"]

/-- Does a text hold a doubled operator, blanks left aside? -/
def hasDoubledOperator (cs : List Char) : Bool :=
  doubledOperators.any fun op => Text.containsChars op.toList (Text.withoutBlanks cs)

/-- The parts of a text between the equals signs. -/
def splitAtEquals : List Char → List (List Char)
  | [] => [[]]
  | '=' :: cs => [] :: splitAtEquals cs
  | c :: cs =>
    match splitAtEquals cs with
    | part :: parts => (c :: part) :: parts
    | [] => [[c]]

/-- Take a text as an expression or an equation. -/
def ofText (text : String) : Answer Input :=
  let trimmed := Text.trimChars text.toList
  if trimmed.isEmpty then .error (.emptyInput text)
  else if hasDoubledOperator trimmed then .error (.doubledOperator text)
  else match splitAtEquals trimmed with
    | [_] => .ok ⟨String.ofList trimmed, none⟩
    | [l, r] =>
      let left := Text.trimChars l
      let right := Text.trimChars r
      if left.isEmpty || right.isEmpty then .error (.emptySide text)
      else .ok ⟨String.ofList trimmed, some (String.ofList left, String.ofList right)⟩
    | _ => .error (.equalsSigns text)

/-- Read every text of a list, and forget what was read. -/
def readAll : List String → Answer Unit
  | [] => .ok ()
  | s :: rest => do
    let _ ← Tree.ofText s
    readAll rest

/-- Take a text as an expression or an equation whose sides can be read. -/
def check (text : String) : Answer Input := do
  let p ← ofText text
  readAll p.sides
  return p

end Input

end AlgebraTutor
