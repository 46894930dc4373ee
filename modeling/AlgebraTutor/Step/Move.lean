import AlgebraTutor.Equivalence
import AlgebraTutor.Pattern.Analysis

/-!
# The move between two steps

The first kind of unfinished work that has disappeared tells what was done; failing that, equivalence tells
that something valid was.
-/

namespace AlgebraTutor

/-- What a learner did between two steps. -/
inductive Move
  | simplifiedArithmetic
  | combinedLikeTerms
  | distributed
  | equivalentTransformation
  | unknown
deriving Repr, DecidableEq

namespace Move

/-- The name of a move. -/
def name : Move → String
  | simplifiedArithmetic => "SIMPLIFIED_ARITHMETIC"
  | combinedLikeTerms => "COMBINED_LIKE_TERMS"
  | distributed => "DISTRIBUTED"
  | equivalentTransformation => "EQUIVALENT_TRANSFORMATION"
  | unknown => "UNKNOWN"

/-- Is it a move that keeps the value? -/
def isValid : Move → Bool
  | unknown => false
  | _ => true

/-- The move in words. -/
def description : Move → String
  | simplifiedArithmetic => "Simplified constant arithmetic operations"
  | combinedLikeTerms => "Combined like terms"
  | distributed => "Applied distributive property"
  | equivalentTransformation => "Applied valid mathematical transformation"
  | unknown => "Could not identify the mathematical operation"

/-- Has a kind of pattern disappeared? -/
def disappeared (kind : Pattern.Kind) (before after : List Pattern.Kind) : Bool :=
  before.contains kind && !after.contains kind

end Move

/-- What a learner did between two steps. -/
def Move.between (previous current : String) : Move :=
  let before := (Analysis.ofText previous).kinds
  let after := (Analysis.ofText current).kinds
  if disappeared .constantArithmetic before after then .simplifiedArithmetic
  else if disappeared .likeTerms before after then .combinedLikeTerms
  else if disappeared .distributive before after then .distributed
  else if equivalent .standard previous current then .equivalentTransformation
  else .unknown

end AlgebraTutor
