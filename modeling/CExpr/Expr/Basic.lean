import CExpr.Operator.Tier
import CExpr.Token.Basic

/-!
# Expressions

The meaning of a parse tree without its rules: operators applied to operands. Grouping is in the
shape, so parentheses leave no trace. Every operation keeps the location of its operator.
-/

namespace CExpr

inductive Expr
  | primary (token : Token)
  /-- An operator after its operand: a member for the two selections, one operand for an index, and
  the arguments for a call. -/
  | suffixed (op : SuffixOp) (left : Expr) (member : Option Token) (operands : List Expr)
    (location : Location)
  | unary (op : UnaryOp) (operand : Expr) (location : Location)
  | binary (op : BinaryOp) (left right : Expr) (location : Location)
  | conditional (condition whenTrue whenFalse : Expr) (location : Location)
  | assign (op : AssignOp) (target value : Expr) (location : Location)
  /-- A declaration in the place of an expression, which no parse tree gives. -/
  | declaration

namespace Expr

/-- The location of the operator, or of the token of a primary expression. -/
def location? : Expr → Option Location
  | primary token => some token.location
  | suffixed _ _ _ _ location | unary _ _ location | binary _ _ _ location
  | conditional _ _ _ location | assign _ _ _ location => some location
  | declaration => none

/-- The sign of the operation, if the expression is one. -/
def symbol? : Expr → Option String
  | primary _ | declaration => none
  | suffixed op _ _ _ _ => some op.symbol
  | unary op _ _ => some op.symbol
  | binary op _ _ _ => some op.symbol
  | conditional _ _ _ _ => some "?:"
  | assign op _ _ _ => some op.symbol

/-- The expressions that the operation is applied to, from left to right. -/
def children : Expr → List Expr
  | primary _ | declaration => []
  | suffixed _ left _ operands _ => left :: operands
  | unary _ operand _ => [operand]
  | binary _ left right _ => [left, right]
  | conditional condition whenTrue whenFalse _ => [condition, whenTrue, whenFalse]
  | assign _ target value _ => [target, value]

mutual

/-- The expression and all expressions in it with the number of operations around each, from the
outside and from left to right. -/
def layersAt (depth : Nat) (expr : Expr) : List (Nat × Expr) :=
  (depth, expr) ::
    match expr with
    | primary _ | declaration => []
    | suffixed _ left _ operands _ => left.layersAt (depth + 1) ++ layersOfAll (depth + 1) operands
    | unary _ operand _ => operand.layersAt (depth + 1)
    | binary _ left right _ => left.layersAt (depth + 1) ++ right.layersAt (depth + 1)
    | conditional condition whenTrue whenFalse _ =>
      condition.layersAt (depth + 1) ++ whenTrue.layersAt (depth + 1) ++
        whenFalse.layersAt (depth + 1)
    | assign _ target value _ => target.layersAt (depth + 1) ++ value.layersAt (depth + 1)

def layersOfAll (depth : Nat) : List Expr → List (Nat × Expr)
  | [] => []
  | expr :: exprs => expr.layersAt depth ++ layersOfAll depth exprs

end

def layers (expr : Expr) : List (Nat × Expr) := expr.layersAt 0

/-- Below an expression stand its children, one layer deeper. -/
theorem layersAt_eq (depth : Nat) (expr : Expr) :
    expr.layersAt depth = (depth, expr) :: expr.children.flatMap (layersAt (depth + 1)) := by
  have hall (exprs : List Expr) :
      layersOfAll (depth + 1) exprs = exprs.flatMap (layersAt (depth + 1)) := by
    induction exprs with
    | nil => rfl
    | cons expr exprs ih => rw [layersOfAll, ih, List.flatMap_cons]
  cases expr <;> simp [layersAt, children, hall]

end Expr

end CExpr
