import AlgebraTutor.Problem.Library
import AlgebraTutor.Service.Request
import AlgebraTutor.Step.Hint
import AlgebraTutor.Step.Move
import AlgebraTutor.Step.Outcome

/-!
# Replies

What the tutor answers to a client. A request that names no problem, or one that is not there, is answered by a
sentence that says so.
-/

namespace AlgebraTutor.Service

/-- The answer to a submitted step. -/
structure StepReply where
  outcome : Outcome
  hints : List String
  move : Option Move
  isUnfinished : Bool

/-- What is answered. -/
inductive Body
  | problems (ps : List Problem)
  | problem (p : Problem)
  | step (reply : StepReply)
  | nextSteps (steps : List String) (solved : Bool)
  | analysis (a : Analysis) (matchesForm : Bool)
  | equivalent (verdict : Bool)
  | detail (sentence : String)

/-- A status and what is answered; where the form of the request is at fault, or the tutor fails, the status
says all. -/
structure Reply where
  status : Nat
  body : Option Body

namespace Reply

/-- An answer. -/
def ok (body : Body) : Reply := ⟨200, some body⟩

/-- A request that makes no sense. -/
def bad (sentence : String) : Reply := ⟨400, some (.detail sentence)⟩

/-- A request for what is not there. -/
def notFound (sentence : String) : Reply := ⟨404, some (.detail sentence)⟩

/-- A request with a method that the path does not take. -/
def methodNotAllowed : Reply := ⟨405, some (.detail "Method Not Allowed")⟩

/-- A request whose fields do not have their types. -/
def unprocessable : Reply := ⟨422, none⟩

/-- A failure of the tutor. -/
def failed : Reply := ⟨500, none⟩

/-- A request for an unknown problem. -/
def unknownProblem (id : String) : Reply :=
  notFound ("Unknown problem '" ++ id ++ "'.")

/-- The reply to a failure that the request is to blame for. -/
def ofFailure (failure : Failure) : Reply :=
  match failure.message? with
  | some sentence => bad sentence
  | none => failed

end Reply

namespace StepQuery

/-- The problem that a request is about, or the reply that there is none. -/
def problem (r : StepQuery) : Except Reply Problem :=
  let id := r.problemId.getD ""
  if id ≠ "" then
    match Library.find? id with
    | some p => .ok p
    | none => .error (.unknownProblem id)
  else
    let statement := r.statement.getD ""
    if Text.trim statement = "" then .error (.bad "Provide a problem_id or a problem_statement.")
    else match Problem.ofDraft ⟨statement, r.steps, none, none, none, none, []⟩ with
      | .ok p => .ok p
      | .error failure => .error (.ofFailure failure)

/-- The step that a request submits, or the reply that it submits none. -/
def context (r : StepQuery) : Except Reply StepContext := do
  let p ← r.problem
  match StepContext.ofHistory p r.history r.submission with
  | .ok c => return c
  | .error failure => .error (.ofFailure failure)

/-- Judge the step that a request submits. -/
def judge (r : StepQuery) : Reply :=
  match r.context with
  | .error reply => reply
  | .ok c =>
    match c.judge with
    | .error _ => .failed
    | .ok outcome =>
      let a := Analysis.ofText c.submission
      let move := if c.accepted.isEmpty then none else some (.between c.previous c.submission)
      .ok (.step ⟨outcome, a.hints, move, !a.isSimplified⟩)

/-- The steps that are expected after the history of a request. -/
def nextSteps (r : StepQuery) : Reply :=
  match r.context with
  | .error reply => reply
  | .ok c => .ok (.nextSteps c.nextSteps c.isSolved)

end StepQuery

/-- The problems that a query asks for. -/
def problemsFor (query : List (String × String)) : Reply :=
  match (query.reverse.find? fun q => q.1 == "problem_type").map (·.2) with
  | none => .ok (.problems Library.problems)
  | some name =>
    match Goal.ofName? name with
    | some goal => .ok (.problems (Library.ofGoal goal))
    | none => .unprocessable

/-- The analysis of an expression. -/
def analysisReply (expression : String) : Reply :=
  let text := Text.trim expression
  if text = "" then .bad "Expression cannot be empty."
  else .ok (.analysis (Analysis.ofText text) (matchesSimplifiedForm text))

/-- The reply to what is posted to a route. -/
def replyToPost (route : Route) (fields : Fields) : Reply :=
  match route with
  | .validateStep => ((StepQuery.ofFields? fields).map StepQuery.judge).getD .unprocessable
  | .nextSteps => ((StepQuery.ofFields? fields).map StepQuery.nextSteps).getD .unprocessable
  | .analyze => ((fields.requiredText? "expression").map analysisReply).getD .unprocessable
  | .equivalent =>
    ((fields.requiredText? "first").bind fun a => (fields.requiredText? "second").map fun b =>
      Reply.ok (.equivalent (equivalent .standard a b))).getD .unprocessable
  | .problems | .problem _ => .methodNotAllowed

/-- The reply to a request. -/
def reply (r : Request) : Reply :=
  match Route.find? r.path.toList with
  | none => .notFound "Not Found"
  | some route =>
    if route.isPosted then
      if r.method ≠ "POST" then .methodNotAllowed
      else match r.body.bind Datum.fields? with
        | none => .unprocessable
        | some fields => replyToPost route fields
    else if r.method ≠ "GET" then .methodNotAllowed
    else match route with
      | .problem id =>
        match Library.find? id with
        | some p => .ok (.problem p)
        | none => .unknownProblem id
      | _ => problemsFor r.query

end AlgebraTutor.Service
