import CExpr.Expr.Printer
import CExpr.Proofs.Expr.WellFormed

/-!
# What a printer appends

A printer keeps the text that it holds and appends the written form of an expression, which is
therefore made of the written forms of its parts. The written form is looked at here as characters
in front of others, which is how a reader meets it.
-/

namespace CExpr

/-! ## Appended texts -/

namespace Printer

theorem text_writeOperands {operands : List Expr}
    (h : ∀ operand ∈ operands, ∀ printer : Printer,
      (printer.write operand).text = printer.text ++ operand.render) (printer : Printer) :
    (printer.writeOperands operands).text =
      printer.text ++ String.join (operands.map fun operand ↦ ", " ++ operand.render) := by
  induction operands generalizing printer with
  | nil => simp [writeOperands]
  | cons operand operands ih =>
    obtain ⟨hoperand, hoperands⟩ := List.forall_mem_cons.1 h
    rw [writeOperands, ih hoperands, hoperand, separate, text_put, List.map_cons, String.join_cons,
      String.append_assoc, String.append_assoc, String.append_assoc]

/-- A printer keeps its text and appends the written form of the expression. -/
theorem text_write (printer : Printer) (expr : Expr) :
    (printer.write expr).text = printer.text ++ expr.render := by
  revert printer
  induction expr using Expr.of_children with
  | step expr ih =>
    intro printer
    change _ = printer.text ++ (empty.write expr).text
    cases expr with
    | primary token => simp [write, empty, String.append_assoc]
    | suffixed op left member operands location =>
      obtain ⟨hleft, hoperands⟩ := List.forall_mem_cons.1 ih
      cases member <;>
        simp [write, empty, separate, hleft, text_writeOperands hoperands, String.append_assoc]
    | unary | binary | conditional | assign =>
      simp_all [write, empty, separate, Expr.children, String.append_assoc]
    | declaration => simp [write, empty]

end Printer

namespace Expr

/-! ## Parts of a written form -/

/-- An expression written by the forms of its parts, with each part where it stands. -/
def compose (form : Expr → String) : Expr → String
  | primary token => "(P " ++ token.className ++ ")"
  | suffixed op left member operands _ =>
    "(PF " ++ op.symbol ++ ", " ++ form left ++
      String.join (member.toList.map fun token ↦ ", " ++ token.className) ++
        String.join (operands.map fun operand ↦ ", " ++ form operand) ++ ")"
  | unary op operand _ => "(U " ++ op.symbol ++ ", " ++ form operand ++ ")"
  | binary op left right _ =>
    "(B " ++ form left ++ ", " ++ op.symbol ++ ", " ++ form right ++ ")"
  | conditional condition whenTrue whenFalse _ =>
    "(T " ++ form condition ++ ", " ++ form whenTrue ++ ", " ++ form whenFalse ++ ")"
  | assign op target value _ =>
    "(A " ++ form target ++ ", " ++ op.symbol ++ ", " ++ form value ++ ")"
  | declaration => ""

theorem render_eq_compose (expr : Expr) : expr.render = expr.compose render := by
  change (Printer.empty.write expr).text = _
  cases expr with
  | suffixed op left member operands location =>
    have hoperands := fun printer ↦
      @Printer.text_writeOperands operands (fun _ _ _ ↦ Printer.text_write _ _) printer
    cases member <;>
      simp [Printer.write, Printer.empty, Printer.separate, Printer.text_write, hoperands, compose,
        String.append_assoc]
  | primary | unary | binary | conditional | assign | declaration =>
    simp [Printer.write, Printer.empty, Printer.separate, Printer.text_write, compose,
      String.append_assoc]

example : (unary .minus (suffixed .dot declaration none [declaration] .start) .start).render =
    "(U -, (PF ., , ))" := by
  decide

/-! ## Written forms in front of other characters -/

/-- The written form of the expression and the characters behind it. -/
def spell (expr : Expr) (behind : List Char) : List Char := expr.render.toList ++ behind

/-- The operands of a suffix, each behind a separator, and the characters behind them. -/
def spellAll (operands : List Expr) (behind : List Char) : List Char :=
  operands.foldr (fun operand behind ↦ ',' :: ' ' :: operand.spell behind) behind

/-- The class of the member of a suffix behind a separator, if there is one. -/
def spellMember (member : Option Token) (behind : List Char) : List Char :=
  match member with
  | some token => ',' :: ' ' :: (token.className.toList ++ behind)
  | none => behind

theorem spell_eq (expr : Expr) (behind : List Char) :
    expr.spell behind = (expr.compose render).toList ++ behind := by
  rw [spell, render_eq_compose]

theorem toList_join_append (operands : List Expr) (behind : List Char) :
    (String.join (operands.map fun operand ↦ ", " ++ operand.render)).toList ++ behind =
      spellAll operands behind := by
  induction operands with
  | nil => simp [spellAll]
  | cons operand operands ih =>
    rw [List.map_cons, String.join_cons, String.toList_append, List.append_assoc, ih]
    simp [spellAll, spell]

section

variable (location : Location) (behind : List Char)

@[simp] theorem spell_primary (token : Token) :
    (primary token).spell behind =
      '(' :: 'P' :: ' ' :: (token.className.toList ++ ')' :: behind) := by
  simp [spell_eq, compose]

@[simp] theorem spell_suffixed (op : SuffixOp) (left : Expr) (member : Option Token)
    (operands : List Expr) :
    (suffixed op left member operands location).spell behind =
      '(' :: 'P' :: 'F' :: ' ' :: (op.symbol.toList ++ ',' :: ' ' ::
        left.spell (spellMember member (spellAll operands (')' :: behind)))) := by
  rw [spell_eq]
  cases member <;> simp [compose, spell, spellMember, ← toList_join_append]

@[simp] theorem spell_unary (op : UnaryOp) (operand : Expr) :
    (unary op operand location).spell behind =
      '(' :: 'U' :: ' ' :: (op.symbol.toList ++ ',' :: ' ' :: operand.spell (')' :: behind)) := by
  rw [spell_eq]
  simp [compose, spell]

@[simp] theorem spell_binary (op : BinaryOp) (left right : Expr) :
    (binary op left right location).spell behind =
      '(' :: 'B' :: ' ' :: left.spell (',' :: ' ' :: (op.symbol.toList ++ ',' :: ' ' ::
        right.spell (')' :: behind))) := by
  rw [spell_eq]
  simp [compose, spell]

@[simp] theorem spell_conditional (condition whenTrue whenFalse : Expr) :
    (conditional condition whenTrue whenFalse location).spell behind =
      '(' :: 'T' :: ' ' :: condition.spell (',' :: ' ' :: whenTrue.spell (',' :: ' ' ::
        whenFalse.spell (')' :: behind))) := by
  rw [spell_eq]
  simp [compose, spell]

@[simp] theorem spell_assign (op : AssignOp) (target value : Expr) :
    (assign op target value location).spell behind =
      '(' :: 'A' :: ' ' :: target.spell (',' :: ' ' :: (op.symbol.toList ++ ',' :: ' ' ::
        value.spell (')' :: behind))) := by
  rw [spell_eq]
  simp [compose, spell]

end

end Expr

end CExpr
