import CExpr.Grammar.Production
import CExpr.Token.Basic

/-!
# Syntax errors

A parse stops at the first token that cannot go on. The error keeps that token and the cause, and
the wording is made from both.
-/

namespace CExpr

inductive SyntaxCause
  /-- No operand can begin here. -/
  | expression
  /-- A token of one kind was required; the text of the token before it is kept for the message. -/
  | missing (kind : Kind) (place : Place) (previous : String)
  | tooDeep
  | tooManyOperators
  deriving DecidableEq, Repr

structure SyntaxError where
  found : Token
  cause : SyntaxCause
  deriving DecidableEq, Repr

/-- The words for a place, where a member name stands after the text `previous`. -/
def Place.description (previous : String) : Place → String
  | conditional => "in conditional expression"
  | index => "after array index"
  | arguments => "after function arguments"
  | expression => "after expression"
  | member => "after '" ++ previous ++ "'"

namespace SyntaxError

def location (error : SyntaxError) : Location := error.found.location

def detail (error : SyntaxError) : String :=
  match error.cause with
  | .expression => "Expected expression, found " ++ error.found.description
  | .missing kind place previous =>
    "Expected " ++ kind.description ++ " " ++ place.description previous ++ ", found " ++
      error.found.description
  | .tooDeep => "Expression nested too deeply"
  | .tooManyOperators => "Expression has too many operators"

def message (error : SyntaxError) : String :=
  "Parse error at " ++ error.location.description ++ ": " ++ error.detail

/-- Whether the error is about a limit and not about the grammar. -/
def isLimit (error : SyntaxError) : Bool :=
  error.cause = .tooDeep || error.cause = .tooManyOperators

end SyntaxError

end CExpr
