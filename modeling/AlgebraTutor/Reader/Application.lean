import AlgebraTutor.Reader.Token

/-!
# Implicit application

A function name that is not followed by a parenthesis applies to what comes next: to the next operand
and everything multiplied to it or raised from it. The parenthesis that opens there is closed after the first
token that no product or power continues; one token closes at most one of them. A power between a
function and its argument moves behind the argument.
-/

namespace AlgebraTutor.Reader

/-- Tokens in which every pair of parentheses holds what stands between them. -/
inductive Nested
  | token (t : Token)
  | group (content : List Nested)

namespace Nested

/-- Nest the tokens by their parentheses: `outer` holds, innermost first, what has been read in each open pair, in reverse. -/
def ofTokens? (outer : List (List Nested)) (current : List Nested) : List Token → Option (List Nested)
  | [] => if outer.isEmpty then some current.reverse else none
  | .mark .openParen :: ts => ofTokens? (current :: outer) [] ts
  | .mark .closeParen :: ts =>
    match outer with
    | enclosing :: outer => ofTokens? outer (.group current.reverse :: enclosing) ts
    | [] => none
  | t :: ts => ofTokens? outer (.token t :: current) ts

end Nested

/-- A stretch of tokens at one level: a single token, or a function with the parenthesis that it is applied to. -/
inductive Unit
  | token (t : Token)
  | applied (ts : List Token)

/-- What is still owed at a level: parentheses to be closed, a token to be passed over, a power between a function and its argument. -/
structure Debt where
  parens : Nat
  passNext : Bool
  inPower : Bool

/-- Is the unit the given mark? -/
def Unit.isMark (m : Mark) : Unit → Bool
  | .token t => t == .mark m
  | .applied _ => false

/-- Is the unit a mark or the end of the text? -/
def Unit.isStop : Unit → Bool
  | .token (.mark _) | .token .finish => true
  | _ => false

/-- Does the unit continue a product or a power? -/
def Unit.continues (u : Unit) : Bool :=
  u.isMark .caret || u.isMark .doubleStar || u.isMark .star

/-- Is the unit the name of a function? -/
def Unit.isFunction : Unit → Bool
  | .token (.word name) => isCallable name
  | _ => false

/-- Is the unit a word, or a text in quotes? -/
def Unit.isName : Unit → Bool
  | .token (.word _) | .token (.quoted _) => true
  | _ => false

/-- The tokens of a unit. -/
def Unit.tokens : Unit → List Token
  | .token t => [t]
  | .applied ts => ts

/-- What is written after a unit that `next` follows, and what is owed then. -/
def settle (debt : Debt) (u next : Unit) : List Token × Debt :=
  if u.isName && !next.isStop then
    if u.isFunction then ([.mark .openParen], { debt with parens := debt.parens + 1 }) else ([], debt)
  else if u.isName && next.isMark .doubleStar then
    ([], if u.isFunction then { debt with inPower := true } else debt)
  else if debt.inPower then
    let endsPower := (match u with | .applied _ => true | _ => u.isMark .star) && !next.isMark .star
    if endsPower then
      if next.isMark .openParen then ([], { debt with inPower := false })
      else ([.mark .openParen], { debt with parens := debt.parens + 1, inPower := false })
    else ([], debt)
  else if debt.parens = 0 then ([], debt)
  else if next.continues then ([], { debt with passNext := true })
  else if debt.passNext then ([], { debt with passNext := false })
  else ([.mark .closeParen], { debt with parens := debt.parens - 1 })

/-- Write the units of a level with the parentheses of implicit applications. -/
def settleAll (debt : Debt) : List Unit → List Token
  | [] => []
  | [u] => u.tokens ++ List.replicate debt.parens (.mark .closeParen)
  | u :: next :: us =>
    let (added, debt) := settle debt u next
    u.tokens ++ added ++ settleAll debt (next :: us)

mutual

/-- The units that an element of a level adds after a function name that may still be applied, those of inner
levels settled, and the function name that may be applied then; a group right after a function is its argument. -/
def unitsOf (function : Option Token) : Nested → List Unit × Option Token
  | .token t =>
    if Unit.isFunction (.token t) then (function.toList.map .token, some t)
    else (function.toList.map .token ++ [.token t], none)
  | .group content =>
    let inner := .mark .openParen :: settleAll ⟨0, false, false⟩ (units none content) ++ [.mark .closeParen]
    match function with
    | some f => ([.applied (f :: inner)], none)
    | none => (inner.map .token, none)

/-- The units of a level after a function name that may still be applied. -/
def units (function : Option Token) : List Nested → List Unit
  | [] => function.toList.map .token
  | n :: rest => (unitsOf function n).1 ++ units (unitsOf function n).2 rest

end

/-- The tokens of a level with the parentheses of implicit applications. -/
def applyFunctions (level : List Nested) : List Token :=
  settleAll ⟨0, false, false⟩ (units none level)

/-- What is read of a power between a function and its argument: nothing, its beginning, or the whole of it before the
argument. The depth is that of the parentheses open in arguments so far. -/
inductive PowerState
  | outside
  | reading (power : List Token) (depth : Int)
  | pending (power : List Token) (depth : Int)

/-- A power begins after a function; what has been read of another one is kept, and so is the depth in its argument. -/
def PowerState.startPower : PowerState → PowerState
  | .outside => .reading [] 0
  | .reading power depth => .reading power depth
  | .pending power depth => .reading power depth

/-- Move a power between a function and its argument behind the argument. -/
def movePowers (state : PowerState) : List Token → List Token
  | [] => []
  | [t] =>
    match state with
    | .outside => [t]
    | .reading power _ => t :: power
    | .pending power _ => t :: power
  | t :: u :: ts =>
    if Unit.isName (.token t) && u == .mark .doubleStar then
      t :: movePowers (if Unit.isFunction (.token t) then state.startPower else state) (u :: ts)
    else match state with
      | .outside => t :: movePowers .outside (u :: ts)
      | .reading power depth =>
        if t == .mark .closeParen && u == .mark .openParen then movePowers (.pending (power ++ [t]) depth) (u :: ts)
        else if t == .mark .star && u == .mark .openParen then movePowers (.pending power depth) (u :: ts)
        else movePowers (.reading (power ++ [t]) depth) (u :: ts)
      | .pending power depth =>
        let depth := if t == .mark .openParen then depth + 1 else if t == .mark .closeParen then depth - 1 else depth
        if depth = 0 then t :: power ++ movePowers .outside (u :: ts)
        else t :: movePowers (.pending power depth) (u :: ts)

/-- Write out every implicit application, if the parentheses match. -/
def applications? (ts : List Token) : Option (List Token) :=
  (Nested.ofTokens? [] [] (ts ++ [.finish, .finish])).map fun level =>
    (movePowers .outside (applyFunctions level)).filter (· != .finish)

end AlgebraTutor.Reader
