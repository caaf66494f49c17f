import CExpr.Expr.Basic

/-!
# Written form of expressions

Every expression is written as a parenthesised form with a mark for its shape, and the parts of a
form are separated by a comma and a space. Tokens appear by their class, so the names and values of
a source do not. A printer appends to the text it already holds.
-/

namespace CExpr

structure Printer where
  text : String
  deriving DecidableEq, Repr

namespace Printer

def empty : Printer := ⟨""⟩

def put (printer : Printer) (text : String) : Printer := ⟨printer.text ++ text⟩

@[simp] theorem text_put (printer : Printer) (text : String) :
    (printer.put text).text = printer.text ++ text := rfl

def separate (printer : Printer) : Printer := printer.put ", "

mutual

/-- Appends the written form of an expression. -/
def write (printer : Printer) : Expr → Printer
  | .primary token => ((printer.put "(P ").put token.className).put ")"
  | .suffixed op left member operands _ =>
    let printer := ((printer.put "(PF ").put op.symbol).separate.write left
    let printer := match member with
      | some token => printer.separate.put token.className
      | none => printer
    (printer.writeOperands operands).put ")"
  | .unary op operand _ =>
    (((printer.put "(U ").put op.symbol).separate.write operand).put ")"
  | .binary op left right _ =>
    ((((printer.put "(B ").write left).separate.put op.symbol).separate.write right).put ")"
  | .conditional condition whenTrue whenFalse _ =>
    ((((printer.put "(T ").write condition).separate.write whenTrue).separate.write
      whenFalse).put ")"
  | .assign op target value _ =>
    ((((printer.put "(A ").write target).separate.put op.symbol).separate.write value).put ")"
  | .declaration => printer

/-- Appends each expression after a separator. -/
def writeOperands (printer : Printer) : List Expr → Printer
  | [] => printer
  | operand :: operands => (printer.separate.write operand).writeOperands operands

end

/-- The written form of one expression, and the printer with nothing in it. -/
def print (printer : Printer) (expr : Expr) : String × Printer :=
  (({ printer with text := "" } : Printer).write expr |>.text, empty)

end Printer

/-- The written form of an expression. -/
def Expr.render (expr : Expr) : String := (Printer.empty.print expr).1

end CExpr
