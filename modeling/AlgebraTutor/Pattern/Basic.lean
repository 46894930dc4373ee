import AlgebraTutor.Canonical.Form

/-!
# Patterns of unfinished work

Each detector walks the tree of a text as it was typed and reports what could still be simplified: arithmetic
on numbers, like terms, a product over a sum, a factor or a term that changes nothing.
-/

namespace AlgebraTutor

/-- The kinds of unfinished work. -/
inductive Pattern.Kind
  | constantArithmetic
  | likeTerms
  | distributive
  | coefficientNormalization
deriving Repr, DecidableEq

/-- The name of a kind. -/
def Pattern.Kind.name : Pattern.Kind → String
  | .constantArithmetic => "CONSTANT_ARITHMETIC"
  | .likeTerms => "LIKE_TERMS"
  | .distributive => "DISTRIBUTIVE"
  | .coefficientNormalization => "COEFFICIENT_NORMALIZATION"

/-- The words that introduce a suggestion. -/
def Pattern.Kind.introduction : Pattern.Kind → String
  | .constantArithmetic => "You can simplify the arithmetic: "
  | .likeTerms => "You can combine like terms: "
  | .distributive => "You can use the distributive property: "
  | .coefficientNormalization => "You can simplify the coefficient: "

/-- A place where work is unfinished. -/
structure Pattern where
  kind : Pattern.Kind
  description : String
  affected : List Tree
  suggestion : String
deriving DecidableEq

namespace Tree

/-- Is the tree, within its parentheses, a number? -/
def isNumber (t : Tree) : Bool :=
  match t.stripParens with
  | .const _ => true
  | _ => false

/-- Is the tree an operator on numbers only? -/
def isNumberOperation : Tree → Bool
  | .apply _ args => args.all isNumber
  | _ => false

/-- A text and what it becomes. -/
def becomes (before after : String) : String :=
  before ++ " = " ++ after

/-- The arithmetic on numbers that is unfinished at a node: what simplifying leaves unchanged, such as a
fraction in lowest terms or the root of a prime, is final. -/
def constantArithmeticAt (t : Tree) : Answer (List Pattern) :=
  if !t.isNumberOperation then .ok []
  else do
    let before ← t.text
    let simple ← t.simplify
    let after ← simple.text
    if before = after then return []
    else return [⟨.constantArithmetic, "The constant arithmetic " ++ before ++ " can be evaluated", [t],
      becomes before after⟩]

/-- Collect what a detector finds at each of some trees. -/
def collectAt (detect : Tree → Answer (List Pattern)) : List Tree → Answer (List Pattern)
  | [] => .ok []
  | t :: ts => do
    let found ← detect t
    let rest ← collectAt detect ts
    return found ++ rest

/-- The unfinished arithmetic of a tree. -/
def openArithmetic (t : Tree) : Answer (List Pattern) :=
  collectAt constantArithmeticAt t.nodes

/-! ### Like terms -/

/-- What all terms without an unknown have in common. -/
def constantLikeness : String := "1"

/-- The texts of the factors that have an unknown. -/
def unknownFactors : List Tree → Answer (List String)
  | [] => .ok []
  | f :: fs =>
    if f.isConstant then unknownFactors fs
    else do
      let text ← f.text
      let rest ← unknownFactors fs
      return text :: rest

/-- Insert a text into an increasing list. -/
def insertText (s : String) : List String → List String
  | [] => [s]
  | t :: ts => if t < s then t :: insertText s ts else s :: t :: ts

/-- Sort texts. -/
def sortTexts (ts : List String) : List String :=
  ts.foldr insertText []

/-- What two terms share if they can be combined: the unknown factors of a term in a fixed order. A term in
parentheses is like the same term only, unless it is taken within them. -/
def likenessOf (withinParens : Bool) : Tree → Answer String
  | .paren content => if withinParens then likenessOf true content else text (.paren content)
  | .const _ => .ok constantLikeness
  | .symbol name => if isNamedConstant name then .ok constantLikeness else .ok name
  | .apply .sub [t] =>
    if t.isConstant then .ok constantLikeness else likenessOf true t
  | .apply .mul [left, right] =>
    if (apply .mul [left, right]).isConstant then .ok constantLikeness
    else do
      let texts ← unknownFactors (apply .mul [left, right]).factors
      return "*".intercalate (sortTexts texts)
  | .apply .div [left, right] =>
    if (apply .div [left, right]).isConstant then .ok constantLikeness
    else if right.isConstant then likenessOf true left
    else text (.apply .div [left, right])
  | .apply op args => if (apply op args).isConstant then .ok constantLikeness else text (.apply op args)

/-- The likeness of a term as it stands. -/
def likeness (t : Tree) : Answer String :=
  likenessOf false t

/-- Terms with one likeness. -/
structure TermGroup where
  likeness : String
  members : List Term

/-- Put a term into the group with its likeness, a new one at the end if there is none. -/
def insertTerm (likeness : String) (term : Term) : List TermGroup → List TermGroup
  | [] => [⟨likeness, [term]⟩]
  | g :: gs =>
    if g.likeness = likeness then ⟨likeness, g.members ++ [term]⟩ :: gs
    else g :: insertTerm likeness term gs

/-- Group terms by their likeness, in the order in which each first occurs. -/
def groupTerms : List TermGroup → List Term → Answer (List TermGroup)
  | groups, [] => .ok groups
  | groups, term :: rest => do
    let key ← likeness term.1
    groupTerms (insertTerm key term groups) rest

/-- The patterns of groups with more than one term. -/
def likeTermPatterns : List TermGroup → Answer (List Pattern)
  | [] => .ok []
  | g :: gs =>
    if g.likeness = constantLikeness ∨ g.members.length < 2 then likeTermPatterns gs
    else do
      let joined ← writeTerms g.members
      let rest ← likeTermPatterns gs
      return ⟨.likeTerms, "The terms in " ++ g.likeness ++ " can be combined", g.members.map (·.1),
        String.ofList joined⟩ :: rest

/-- The like terms of a tree. -/
def likeTerms (t : Tree) : Answer (List Pattern) := do
  let groups ← groupTerms [] t.terms
  likeTermPatterns groups

/-! ### Products over sums, and idle numbers -/

/-- The product over a sum at a node. -/
def distributiveAt : Tree → Answer (List Pattern)
  | .apply .mul [left, right] =>
    if left.isSum || right.isSum then do
      let t := Tree.apply .mul [left, right]
      let before ← t.text
      let expanded ← t.expand
      let after ← expanded.text
      return [⟨.distributive, "The product " ++ before ++ " can be expanded", [t], becomes before after⟩]
    else .ok []
  | _ => .ok []

/-- The products over sums of a tree. -/
def openProducts (t : Tree) : Answer (List Pattern) :=
  collectAt distributiveAt t.nodes

/-- Is one of the operands, within its parentheses, a number with the given property? -/
def hasNumber (p : Rat → Bool) (args : List Tree) : Bool :=
  args.any fun t => match t.stripParens with
    | .const v => p v
    | _ => false

/-- Has the operator a number as an operand that is not needed: `0`, `1` or `-1` as a factor, `0` as a term? -/
def hasIdleNumber : Tree → Bool
  | .apply .mul [left, right] => hasNumber (fun v => v == 0 || v == 1 || v == -1) [left, right]
  | .apply .add [left, right] => hasNumber (· == 0) [left, right]
  | .apply .sub [left, right] => hasNumber (· == 0) [left, right]
  | _ => false

/-- The idle number at a node that is no operation on numbers only. -/
def coefficientNormalizationAt (t : Tree) : Answer (List Pattern) :=
  if t.isNumberOperation || !t.hasIdleNumber then .ok []
  else do
    let before ← t.text
    let simple ← t.simplify
    let after ← simple.text
    return [⟨.coefficientNormalization, before ++ " has a redundant 0, 1 or -1", [t], becomes before after⟩]

/-- The idle numbers of a tree. -/
def idleNumbers (t : Tree) : Answer (List Pattern) :=
  collectAt coefficientNormalizationAt t.nodes

/-- All patterns of a tree. -/
def patterns (t : Tree) : Answer (List Pattern) := do
  let arithmetic ← t.openArithmetic
  let likeTerms ← t.likeTerms
  let products ← t.openProducts
  let coefficients ← t.idleNumbers
  return arithmetic ++ likeTerms ++ products ++ coefficients

/-- Is a node arithmetic on numbers that simplifying changes? -/
def isUnfinishedArithmetic (t : Tree) : Answer Bool :=
  if !t.isNumberOperation then .ok false
  else do
    let simple ← t.simplify
    let after ← simple.text
    let before ← t.text
    return after ≠ before

/-- Is a node a product with the factor `1` or `-1`? -/
def hasUnitFactor : Tree → Bool
  | .apply .mul [left, right] => hasNumber (fun v => v == 1 || v == -1) [left, right]
  | _ => false

/-- Is some of the nodes unfinished? -/
def someUnfinished : List Tree → Answer Bool
  | [] => .ok false
  | t :: ts => do
    if ← t.isUnfinishedArithmetic then return true
    else if t.hasUnitFactor then return true
    else someUnfinished ts

/-- Is some arithmetic or some unit coefficient of the tree left over? -/
def hasOpenWork (t : Tree) : Answer Bool :=
  someUnfinished t.nodes

end Tree

end AlgebraTutor
