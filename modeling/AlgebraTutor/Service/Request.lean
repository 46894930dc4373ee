import AlgebraTutor.Service.Address

/-!
# Requests

What a client of the tutor sends: a method, a path, a query and a body. The fields of a body have fixed types;
fields that nobody asks for are left aside.
-/

namespace AlgebraTutor.Service

/-- A value that a client sends. -/
inductive Datum
  | null
  | flag (value : Bool)
  | number
  | text (value : String)
  | list (values : List Datum)
  | record (fields : List (String × Datum))
deriving Inhabited

namespace Datum

/-- The text that a value is. -/
def text? : Datum → Option String
  | text s => some s
  | _ => none

/-- The texts that a list holds. -/
def texts? : Datum → Option (List String)
  | list values => values.mapM text?
  | _ => none

/-- The fields of a record. -/
def fields? : Datum → Option (List (String × Datum))
  | record fields => some fields
  | _ => none

end Datum

/-- The fields of a body. -/
abbrev Fields := List (String × Datum)

namespace Fields

/-- The value of a field. -/
def get? (fields : Fields) (name : String) : Option Datum :=
  (fields.find? fun f => f.1 == name).map (·.2)

/-- A field that has to be a text. -/
def requiredText? (fields : Fields) (name : String) : Option String :=
  (get? fields name).bind Datum.text?

/-- A field that may be missing or null, and is a text otherwise; nothing if it is something else. -/
def optionalText? (fields : Fields) (name : String) : Option (Option String) :=
  match get? fields name with
  | none | some .null => some none
  | some d => d.text?.map some

/-- A field that is a text, and the default if it is missing. -/
def textOr? (fields : Fields) (name default : String) : Option String :=
  match get? fields name with
  | none => some default
  | some d => d.text?

/-- A field that is a list of texts, and empty if it is missing. -/
def texts? (fields : Fields) (name : String) : Option (List String) :=
  match get? fields name with
  | none => some []
  | some d => d.texts?

end Fields

/-- What a client sends. -/
structure Request where
  method : String
  path : String
  query : List (String × String)
  body : Option Datum

/-- The request to an address; values of its query are followed by those that are given beside it. -/
def Request.ofAddress (method address : String) (query : List (String × String)) (body : Option Datum) : Request :=
  let a := Address.ofText address
  ⟨method.toUpper, a.path, a.query ++ query, body⟩

/-- What is submitted for a step. -/
structure StepQuery where
  problemId : Option String
  statement : Option String
  steps : List String
  history : List String
  submission : String

/-- Read a step from the fields of a body. -/
def StepQuery.ofFields? (fields : Fields) : Option StepQuery :=
  (fields.optionalText? "problem_id").bind fun id =>
    (fields.optionalText? "problem_statement").bind fun statement =>
      (fields.texts? "solution_steps").bind fun steps =>
        (fields.texts? "user_history").bind fun history =>
          (fields.textOr? "student_input" "").map fun submission => ⟨id, statement, steps, history, submission⟩

/-- What may be asked for. -/
inductive Route
  | problems
  | problem (id : String)
  | validateStep
  | nextSteps
  | analyze
  | equivalent
deriving Repr, DecidableEq

namespace Route

/-- Is the route one that is posted to? -/
def isPosted : Route → Bool
  | problems | problem _ => false
  | _ => true

/-- The route of a path. -/
def ofPath? (path : List Char) : Option Route :=
  match (Address.splitAt '/' path).map String.ofList with
  | ["", "api", "problems"] => some problems
  | ["", "api", "problems", id] => if id = "" then none else some (problem id)
  | ["", "api", "validate-step"] => some validateStep
  | ["", "api", "next-steps"] => some nextSteps
  | ["", "api", "analyze"] => some analyze
  | ["", "api", "equivalent"] => some equivalent
  | _ => none

/-- A path without the slashes at its end. -/
def withoutEndSlashes (path : List Char) : List Char :=
  (path.reverse.dropWhile (· == '/')).reverse

/-- The route of a path; one with slashes at its end leads where it leads without them. -/
def find? (path : List Char) : Option Route :=
  (ofPath? path).or (if path.getLast? = some '/' then ofPath? (withoutEndSlashes path) else none)

end Route

end AlgebraTutor.Service
