import CExpr.Proofs.Expr.Rendering

/-!
# Calls on a printer

One printer serves any number of calls. A call appends an expression to the text that is there, or
takes the text of one expression and leaves nothing. Texts that earlier calls left never come into
what a later one gives back, and between two texts that are taken the printer holds the written
forms of what was appended, one after the other. The written form of an operation is put together
from those of its parts in their order.
-/

namespace CExpr

namespace Printer

/-! ## Sequences of calls -/

inductive Call
  | write (expr : Expr)
  | print (expr : Expr)

/-- What a call gives back, if it gives anything, and the printer that it leaves. -/
def call (printer : Printer) : Call → Option String × Printer
  | .write expr => (none, printer.write expr)
  | .print expr => (some (printer.print expr).1, (printer.print expr).2)

/-- What the calls give back, in order, and the printer that they leave. -/
def run (printer : Printer) : List Call → List String × Printer
  | [] => ([], printer)
  | next :: calls =>
    ((printer.call next).1.toList ++ ((printer.call next).2.run calls).1,
      ((printer.call next).2.run calls).2)

namespace Call

/-- The text that a call should give back, whatever the printer holds. -/
def answer? : Call → Option String
  | write _ => none
  | print expr => some expr.render

/-- The text that a call should leave in the place of another. -/
def leave (text : String) : Call → String
  | write expr => text ++ expr.render
  | print _ => ""

end Call

@[simp] theorem fst_print (printer : Printer) (expr : Expr) :
    (printer.print expr).1 = expr.render := rfl

theorem fst_call (printer : Printer) (next : Call) :
    (printer.call next).1 = next.answer? := by
  cases next <;> rfl

theorem text_snd_call (printer : Printer) (next : Call) :
    (printer.call next).2.text = next.leave printer.text := by
  cases next with
  | write expr => exact printer.text_write expr
  | print expr => rfl

theorem fst_run (printer : Printer) (calls : List Call) :
    (printer.run calls).1 = calls.filterMap Call.answer? := by
  induction calls generalizing printer with
  | nil => rfl
  | cons next calls ih =>
    rw [run, fst_call, ih, List.filterMap_cons]
    cases next.answer? <;> rfl

theorem text_snd_run (printer : Printer) (calls : List Call) :
    (printer.run calls).2.text = calls.foldl Call.leave printer.text := by
  induction calls generalizing printer with
  | nil => rfl
  | cons next calls ih => rw [run, ih, text_snd_call, List.foldl_cons]

end Printer

/-- Whatever a printer holds, writing an expression appends its written form and nothing else. So
after any calls, in any order, printing gives the written form alone, each call before it gave back
what it gives back on a new printer, and the printer holds the written forms since the last text was
taken. A written form is made of those of the parts of its expression, in their order. -/
theorem Printer.answers_of_calls :
    (∀ (printer : Printer) (expr : Expr),
      (printer.write expr).text = printer.text ++ expr.render) ∧
    (∀ (printer : Printer) (calls : List Printer.Call),
      (printer.run calls).1 = calls.filterMap Printer.Call.answer? ∧
        (printer.run calls).2.text = calls.foldl Printer.Call.leave printer.text ∧
        ∀ expr, ((printer.run calls).2.print expr).1 = expr.render) ∧
    ∀ expr : Expr, expr.render = expr.compose Expr.render := by
  refine ⟨Printer.text_write, fun printer calls ↦ ⟨?_, ?_, fun expr ↦ ?_⟩,
    Expr.render_eq_compose⟩
  · exact printer.fst_run calls
  · exact printer.text_snd_run calls
  · exact (printer.run calls).2.fst_print expr

end CExpr
