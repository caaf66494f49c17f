import CExpr.Expr.Basic

/-!
# Walking over binary operations

A walk goes through binary operations and stops at everything else. It meets the operands of a chain
of binary operations from left to right, however they are grouped.
-/

namespace CExpr.Expr

/-- The largest parts of the expression that are not binary operations, from left to right. -/
def operands : Expr → List Expr
  | binary _ left right _ => left.operands ++ right.operands
  | expr => [expr]

/-- Visits the operands of the expression with an accumulator, and nothing below them. -/
def walk {σ : Type} (visit : σ → Expr → σ) (acc : σ) : Expr → σ
  | binary _ left right _ => right.walk visit (left.walk visit acc)
  | expr => visit acc expr

/-- A walk visits each operand once, in order. -/
theorem walk_eq_foldl_operands {σ : Type} (visit : σ → Expr → σ) (acc : σ) (expr : Expr) :
    expr.walk visit acc = expr.operands.foldl visit acc := by
  fun_induction walk visit acc expr with
  | case1 acc op left right location ihLeft ihRight =>
    rw [operands, List.foldl_append, ihRight, ihLeft]
  | case2 acc expr hexpr =>
    rw [operands]
    · rfl
    · exact hexpr

end CExpr.Expr
