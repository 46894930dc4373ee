/-!
# What can go wrong

Every failure of the tutor is a cause with the data that its report needs. The wording lives in one
function, `Failure.message?`, and the text that a report quotes in another, `Failure.input?`.
-/

namespace AlgebraTutor

/-- Why a text is no expression. -/
inductive ReadError
  | emptyText
  | invalidCharacters (found : List Char)
  | ungrammatical
  | unsupportedOperator
  | unexpectedName (name : String)
  | missingArgument (function : String)
  | noExpression
deriving Repr, DecidableEq

/-- Why an expression has no value at a point. -/
inductive SampleError
  | undefined
  | unbound (names : List String)
  | inexpressible
  | unreal
  | unbounded
deriving Repr, DecidableEq

/-- Why an operation of the tutor has no answer. -/
inductive Failure
  /-- The input is blank. -/
  | emptyInput (input : String)
  /-- The input holds a doubled operator. -/
  | doubledOperator (input : String)
  /-- The input has more than one equals sign. -/
  | equalsSigns (input : String)
  /-- A side of the equation is blank. -/
  | emptySide (input : String)
  /-- The input is no expression. -/
  | unreadable (cause : ReadError) (input : String)
  /-- An expression applies a function without a meaning. -/
  | unknownFunction (name text : String)
  /-- A value has no expression in real functions. -/
  | unrepresentable
  /-- An expression has no value. -/
  | undefined
  /-- An expression, given with its text, has no value at a point. -/
  | evaluation (cause : SampleError) (text : String)
  /-- A binary operator is given another number of operands than two. -/
  | operandCount (operator : String) (count : Nat)
  /-- A problem has no solution step, or a blank one. -/
  | missingSteps
  /-- A history begins with something else than the problem statement. -/
  | foreignHistory
  /-- A function is given a number of arguments that it does not take. -/
  | argumentCount
  /-- A number has too many digits to be written or read. -/
  | digitLimit
  /-- A binary operator without its two operands cannot be written. -/
  | misshapen
  /-- An operator lacks the operand that its value depends on. -/
  | missingOperand
  /-- A number is too large for floating point. -/
  | floatRange
deriving Repr, DecidableEq

/-- The names of unbound symbols as a report lists them. -/
def joinNames (names : List String) : String :=
  ", ".intercalate names

/-- The report of a reading failure; `text` is the whole text that was read. -/
def ReadError.message (text : String) : ReadError → String
  | .emptyText => "Could not parse an empty expression"
  | .invalidCharacters found => "Invalid character(s): " ++ " ".intercalate (found.map Char.toString)
  | .ungrammatical => "Could not parse expression: '" ++ text ++ "'. Error: "
  | .unsupportedOperator => "Unsupported operator in '" ++ text ++ "'"
  | .unexpectedName name => "Unexpected name '" ++ name ++ "' in '" ++ text ++ "'"
  | .missingArgument function => function ++ "() needs an argument"
  | .noExpression => "Could not parse expression: '" ++ text ++ "'"

/-- The report of an evaluation failure of the expression written `text`. -/
def SampleError.message (text : String) : SampleError → String
  | .undefined => "Expression is undefined: " ++ text
  | .unbound names => "No value bound for " ++ joinNames names
  | .inexpressible => "Could not evaluate " ++ text ++ ": "
  | .unreal => text ++ " has no real value here"
  | .unbounded => text ++ " is undefined at a sampled point"

/-- The report of a failure, for those that have one. -/
def Failure.message? : Failure → Option String
  | .emptyInput _ => some "Empty input provided"
  | .doubledOperator _ => some "Invalid mathematical expression: consecutive operators detected"
  | .equalsSigns _ => some "Invalid equation format: equations must have exactly one equals sign"
  | .emptySide _ => some "Invalid equation format: both sides of equation must contain expressions"
  | .unreadable cause input => some (cause.message input)
  | .unknownFunction name _ => some ("Unknown function '" ++ name ++ "'")
  | .unrepresentable => some "Cannot represent "
  | .undefined => some "Expression is undefined: "
  | .evaluation cause text => some (cause.message text)
  | .operandCount operator count =>
    some ("Operator '" ++ operator ++ "' takes two operands, got " ++ toString count)
  | .missingSteps => some "A problem needs at least one non-empty solution step."
  | .foreignHistory => some "The first history entry must be the problem statement."
  | .argumentCount | .digitLimit | .misshapen | .missingOperand | .floatRange => none

/-- The text that a report quotes as the input at fault. -/
def Failure.input? : Failure → Option String
  | .emptyInput input | .doubledOperator input | .equalsSigns input | .emptySide input => some input
  | .unreadable _ input => some input
  | .unknownFunction _ text => some text
  | _ => none

/-- Does the failure say that an input cannot be turned into an expression? -/
def Failure.isInputError : Failure → Bool
  | .emptyInput _ | .doubledOperator _ | .equalsSigns _ | .emptySide _ | .unreadable _ _
  | .unknownFunction _ _ | .unrepresentable => true
  | _ => false

/-- Does the failure say that an expression has no finite value? -/
def Failure.isArithmetic : Failure → Bool
  | .undefined | .evaluation _ _ | .floatRange => true
  | _ => false

/-- The answer of an operation that may fail. -/
abbrev Answer (α : Type) := Except Failure α

end AlgebraTutor
