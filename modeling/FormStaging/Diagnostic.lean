import FormStaging.Misuse
import FormStaging.Node
import FormStaging.Rendering.Graph

/-!
# Diagnostics

A `Cause` says what is wrong with an expression or with the settings it is split under, and which
part is named in the report. An `Error` is a cause with the places of the offending node in the
written form of the expression. The wording of a report is a function of the cause: a message, a
label for the places, and a help and a note where there is something to say.

Quoted expressions and suggestions are highlighted with terminal colour codes.
-/

set_option autoImplicit false

namespace FormStaging

/-- The two kinds of terminals that have slots. -/
inductive SlotKind where
  | argument
  | coefficient
deriving DecidableEq, Repr

/-- The name of a kind of terminals in messages. -/
def SlotKind.name : SlotKind → String
  | argument => "basis function"
  | coefficient => "coefficient"

/-- What is wrong. -/
inductive Cause where
  /-- A node was to be rebuilt from a wrong number of operands. -/
  | operandCount (kind : Kind) (expected given : Nat)
  /-- An argument has no slot in the form data. -/
  | unknownArgument (name : String) (rank : Nat)
  /-- A coefficient has no slot in the form data; the suggestions are coefficients with a similar
  name. -/
  | unknownCoefficient (name : String) (suggestions : List String)
  /-- The form data assign a slot without a dependency declaration. -/
  | undeclaredSlot (kind : SlotKind) (name : String) (slot declared : Nat)
  /-- A dependency declaration has a wrong number of flags. -/
  | declarationRank (kind : SlotKind) (slot expected given : Nat)
  /-- A variable was met before its own content was split. -/
  | unprocessedVariable (label : String)
  /-- A label was registered twice with different contents or dependencies. -/
  | registrationCollision (label first firstDeps second secondDeps : String)
  /-- The expression is nested deeper than allowed. -/
  | tooDeep (maxDepth : Nat)
  /-- An expression that is no variable stands where one is needed. -/
  | notVariable (expression : String)
deriving DecidableEq, Repr

/-- The ending of a noun that is counted. -/
def pluralEnding (count : Nat) : String := if count = 1 then "" else "s"

/-- Text in the colour of expressions. -/
def highlighted (s : String) : String := "\x1b[38;2;52;235;152m" ++ s ++ "\x1b[0m"

/-- Text between backquotes. -/
def quoted (s : String) : String := "`" ++ s ++ "`"

namespace Cause

/-- The headline of the report. -/
def message : Cause → String
  | operandCount kind _ given =>
    "cannot reconstruct a " ++ quoted kind.name ++ " node from " ++ toString given ++ " operand" ++
      pluralEnding given
  | unknownArgument name _ => "the basis function " ++ quoted name ++ " is not an argument of this form"
  | unknownCoefficient name _ =>
    "the coefficient " ++ quoted name ++ " is not a coefficient of this form"
  | undeclaredSlot kind name slot _ =>
    "the " ++ kind.name ++ " " ++ quoted name ++ " was assigned slot " ++ toString slot ++
      ", which is not declared"
  | declarationRank kind slot _ given =>
    "the dependency set declared for " ++ kind.name ++ " slot " ++ toString slot ++ " has " ++
      toString given ++ " basis-function flag" ++ pluralEnding given
  | unprocessedVariable label =>
    "the variable " ++ quoted label ++ " is referenced before it was processed"
  | registrationCollision label _ _ _ _ =>
    "the variable " ++ quoted label ++ " was registered twice with different contents"
  | tooDeep _ => "the expression is nested too deeply to split"
  | notVariable expression => "expected a variable, got " ++ quoted expression

/-- The text at the places of the report. Errors in the settings have none. -/
def label? : Cause → Option String
  | operandCount _ _ _ => some "this expression"
  | unknownArgument _ _ => some "this basis function"
  | unknownCoefficient _ _ => some "this coefficient"
  | undeclaredSlot _ _ _ _ => none
  | declarationRank _ _ _ _ => none
  | unprocessedVariable _ => some "this variable"
  | registrationCollision _ _ _ _ _ => some "this variable"
  | tooDeep _ => some "this subexpression is too deep"
  | notVariable _ => some "this expression"

/-- The help for an unknown coefficient. -/
def suggestionHelp : List String → String
  | [] => "make sure the form data was collected from this integrand"
  | [s] => "did you mean the " ++ quoted (highlighted s) ++ " coefficient?"
  | suggestions =>
    "did you mean one of these coefficients? " ++
      ", ".intercalate (suggestions.map fun s => quoted (highlighted s))

/-- What the user can do. -/
def help? : Cause → Option String
  | operandCount kind expected _ =>
    some ("a " ++ quoted kind.name ++ " node takes exactly " ++ toString expected ++ " operand(s)")
  | unknownArgument _ rank =>
    some ("the form has " ++ toString rank ++ " basis function" ++ pluralEnding rank ++
      "; make sure the form data was collected from this integrand")
  | unknownCoefficient _ suggestions => some (suggestionHelp suggestions)
  | undeclaredSlot kind _ _ declared =>
    some ("only " ++ toString declared ++ " " ++ kind.name ++ " dependency set" ++
      pluralEnding declared ++ " were given")
  | declarationRank _ _ expected _ =>
    some ("every dependency set must have one flag per basis function (" ++ toString expected ++
      " here)")
  | unprocessedVariable _ => none
  | registrationCollision _ first firstDeps second secondDeps =>
    some ("it was first registered as " ++ quoted (highlighted first) ++ " with dependencies " ++
      firstDeps ++ ", then as " ++ quoted (highlighted second) ++ " with dependencies " ++
      secondDeps)
  | tooDeep maxDepth =>
    some ("the maximum depth is " ++ toString maxDepth ++ "; raise it with " ++
      quoted "SplitOptions::max_depth")
  | notVariable _ =>
    some ("wrap the expression with " ++ quoted "Expr::variable" ++ " or " ++
      quoted "Expr::labelled" ++ " first")

/-- What the user should know. -/
def note? : Cause → Option String
  | unprocessedVariable _ =>
    some ("variables are processed in post-order, so a variable must only refer to variables " ++
      "reachable from the expression being split")
  | registrationCollision _ _ _ _ _ =>
    some ("use " ++ quoted "CollisionPolicy::Warn" ++ " to keep the first registration instead")
  | _ => none

end Cause

/-- A cause with its places in the written form of the expression. -/
structure Error where
  cause : Cause
  spans : List Span
deriving DecidableEq, Repr

/-- Why an operation has no result: an error to report, a promise broken by the caller, or a label
past the last one. -/
inductive Failure where
  | error (e : Error)
  | misuse (m : Misuse)
  | labelOverflow
deriving DecidableEq, Repr

end FormStaging
