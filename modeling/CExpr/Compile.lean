import CExpr.Expr.OfTree
import CExpr.Parse.Parser
import CExpr.Scan.Basic

/-!
# From source to expression

A source is scanned, parsed and built. Faults of the scan are reported beside the result and stop
nothing: what remains of the source is parsed all the same.
-/

namespace CExpr

inductive Failure
  | malformed (error : SyntaxError)
  | internal (error : TreeError)
  deriving DecidableEq, Repr

namespace Failure

/-- Whether the error is one of the program and not of its input. -/
def isInternal : Failure → Bool
  | malformed _ => false
  | internal _ => true

def message : Failure → String
  | malformed error => error.message
  | internal error => error.message

end Failure

/-- Everything that a source gives on its way. -/
structure Compilation where
  tokens : List Token
  tree : Node
  expr : Expr

/-- Parses and builds the tokens of a source. -/
def compileTokens (tokens : List Token) : Except Failure Compilation := do
  let tree ← (parse tokens).mapError .malformed
  let expr ← (Expr.ofTree tree).mapError .internal
  .ok ⟨tokens, tree, expr⟩

/-- Compiles a source. The reports of its scan come with every result. -/
def compile (source : String) : Except Failure Compilation × List Report :=
  (compileTokens (scan source).tokens, (scan source).reports)

/-- The expression of a source, without what led to it. -/
def compileExpr (source : String) : Except Failure Expr × List Report :=
  ((compile source).1.map Compilation.expr, (compile source).2)

end CExpr
