/-!
# Letters and reserved names

What a run of letters means. A run that is a reserved name (a function, `pi` or `E`) stands for
itself; every other run is a product of one-letter variables, and spelling out that product
leaves no run of letters that is neither a single variable nor a reserved name.
-/

namespace AlgebraTutor.Text

/-- The functions a learner may write. -/
def functionNames : List String :=
  ["sqrt", "sin", "cos", "tan", "log", "ln", "exp", "abs"]

/-- The names that are not products of variables. -/
def reservedNames : List String :=
  functionNames ++ ["pi", "E"]

/-- Is the row of characters a reserved name? -/
def isReserved (run : List Char) : Bool :=
  reservedNames.any fun name => name.toList == run

/-- Cut a text into its maximal runs of letters (`true`) and of other characters (`false`). -/
def letterRuns : List Char → List (Bool × List Char)
  | [] => []
  | c :: cs =>
    match letterRuns cs with
    | (isRun, run) :: rest =>
      if isRun == c.isAlpha then (isRun, c :: run) :: rest
      else (c.isAlpha, [c]) :: (isRun, run) :: rest
    | [] => [(c.isAlpha, [c])]

/-- Insert a character into a strictly increasing list. -/
def insertLetter (c : Char) : List Char → List Char
  | [] => [c]
  | d :: ds => if c < d then c :: d :: ds else if c = d then d :: ds else d :: insertLetter c ds

/-- The variables of a text, in increasing order: the letters of its runs that are no reserved name. -/
def variableLetters (cs : List Char) : List Char :=
  (letterRuns cs).foldl
    (fun found run =>
      if run.1 && !isReserved run.2 then run.2.foldl (fun acc c => insertLetter c acc) found else found) []

/-- Write a product sign between the letters of a run. -/
def spellRun : List Char → List Char
  | [] => []
  | [c] => [c]
  | c :: d :: cs => c :: '*' :: spellRun (d :: cs)

/-- Write every run of variables as a product, so that only variables and reserved names are left. -/
def spellProducts (vars : List Char) (cs : List Char) : List Char :=
  (letterRuns cs).flatMap fun run =>
    if run.1 && !isReserved run.2 && run.2.all (vars.contains ·) then spellRun run.2 else run.2

end AlgebraTutor.Text
