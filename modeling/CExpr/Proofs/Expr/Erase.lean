import CExpr.Expr.Printer
import CExpr.Proofs.Expr.OfDerivation
import CExpr.Proofs.Expr.WellFormed

/-!
# Texts and places are not looked at

A tree and a derivation may be stripped of the texts and places of their tokens, as an expression
may. A derivation asks only about kinds, so it is still one when it is stripped, and it has the
stripped tree and the stripped expression. The expression of a derivation is well-formed, so where
its written form has a token, the name of a class stands for it.
-/

namespace CExpr

/-! ## Erased tokens -/

namespace Token

variable {token other : Token}

@[simp] theorem kind_erase (token : Token) : token.erase.kind = token.kind := rfl

@[simp] theorem location_erase (token : Token) : token.erase.location = .start := rfl

@[simp] theorem erase_eq_erase_iff : token.erase = other.erase ↔ token.kind = other.kind := by
  simp [erase]

/-- The name of a class has nothing of the text of the token. -/
theorem className_erase (h : token.kind ∈ Kind.classes) :
    token.erase.className = token.className := by
  simp only [Kind.classes, List.mem_cons, List.not_mem_nil, or_false] at h
  rcases h with h | h | h | h <;> simp [className, h]

end Token

/-! ## Erased trees -/

namespace Node

mutual

/-- The tree without the texts and places of its tokens. -/
def erase : Node → Node
  | ⟨tag, isEmpty, held, nodes⟩ => ⟨tag, isEmpty, held.map Token.erase, eraseAll nodes⟩

def eraseAll : List Node → List Node
  | [] => []
  | node :: nodes => node.erase :: eraseAll nodes

end

end Node

namespace Derivation

/-- The derivation without the texts and places of its tokens. -/
def erase : {rule : NonTerminal} → Derivation rule → Derivation rule
  | _, root body stop hstop => root body.erase stop.erase hstop
  | _, expression body => expression body.erase
  | _, assignment target rest => assignment target.erase rest.erase
  | _, noAssignment => noAssignment
  | _, assign sign op hsign value => assign sign.erase op hsign value.erase
  | _, conditional condition rest => conditional condition.erase rest.erase
  | _, noChoice => noChoice
  | _, choice question hquestion whenTrue colon hcolon whenFalse =>
    choice question.erase hquestion whenTrue.erase colon.erase hcolon whenFalse.erase
  | _, tier first rest => tier first.erase rest.erase
  | _, noOperator => noOperator
  | _, operator sign op hsign operand rest =>
    operator sign.erase op hsign operand.erase rest.erase
  | _, cast body => cast body.erase
  | _, prefixed sign op hsign operand => prefixed sign.erase op hsign operand.erase
  | _, unprefixed body => unprefixed body.erase
  | _, suffixed first rest => suffixed first.erase rest.erase
  | _, noSuffix => noSuffix
  | _, step sign op hsign hop rest => step sign.erase op hsign hop rest.erase
  | _, selection sign op hsign hop member hmember rest =>
    selection sign.erase op hsign hop member.erase hmember rest.erase
  | _, index opening hopening body closing hclosing rest =>
    index opening.erase hopening body.erase closing.erase hclosing rest.erase
  | _, call opening hopening list closing hclosing rest =>
    call opening.erase hopening list.erase closing.erase hclosing rest.erase
  | _, noArguments => noArguments
  | _, arguments first rest => arguments first.erase rest.erase
  | _, noArgument => noArgument
  | _, argument comma hcomma first rest => argument comma.erase hcomma first.erase rest.erase
  | _, atom token htoken => atom token.erase htoken
  | _, group opening hopening body closing hclosing =>
    group opening.erase hopening body.erase closing.erase hclosing

theorem toNode_erase {rule : NonTerminal} (derivation : Derivation rule) :
    derivation.erase.toNode = derivation.toNode.erase := by
  induction derivation <;> simp_all [erase, toNode, Node.erase, Node.eraseAll]

/-! ## Erased expressions -/

/-- What is read off a derivation is stripped when the derivation is. -/
theorem erase_read {rule : NonTerminal} (derivation : Derivation rule) :
    derivation.expr.erase = derivation.erase.expr ∧
      (∀ left, (derivation.after left).erase = derivation.erase.after left.erase) ∧
      Expr.eraseAll derivation.exprs = derivation.erase.exprs := by
  induction derivation <;>
    simp_all [erase, expr, after, exprs, Expr.erase, Expr.eraseAll]

end Derivation

/-! ## Well-formed expressions of derivations -/

/-- The member of a selection is a name. -/
theorem SuffixOp.Takes.kind_member {op : SuffixOp} {token : Token} {operands : List Expr}
    (h : op.Takes (some token) operands) : token.kind = .identifier := by
  cases op with
  | arrow | dot =>
    obtain ⟨⟨member, hmember, hkind⟩, -⟩ := h
    cases hmember
    exact hkind
  | increment | decrement | index => cases h.1
  | call => cases h

namespace Derivation

/-- What a derivation makes of well-formed expressions is well-formed. -/
def Forms : {rule : NonTerminal} → Derivation rule → Prop
  | .assignmentRest, rest | .conditionalRest, rest | .tierRest _, rest | .suffixedRest, rest =>
    ∀ left, left.WellFormed → (rest.after left).WellFormed
  | .argumentList, list | .argumentListRest, list => ∀ expr ∈ list.exprs, expr.WellFormed
  | _, derivation => derivation.expr.WellFormed

theorem Forms.operand {t : Tier} {operand : Derivation t.operand} (h : operand.Forms) :
    operand.expr.WellFormed := by
  cases t <;> exact h

theorem forms {rule : NonTerminal} (derivation : Derivation rule) : derivation.Forms := by
  induction derivation with
  | root body _ _ ih | expression body ih | cast body ih | unprefixed body ih => exact ih
  | assignment target rest ihFirst ihRest | conditional target rest ihFirst ihRest
  | suffixed target rest ihFirst ihRest => exact ihRest _ ihFirst
  | tier first rest ihFirst ihRest => exact ihRest _ ihFirst.operand
  | noAssignment | noChoice | noOperator | noSuffix => exact fun left hleft ↦ hleft
  | assign sign op hsign value ih => exact fun left hleft ↦ .assign hleft ih
  | choice question hquestion whenTrue colon hcolon whenFalse ihTrue ihFalse =>
    exact fun left hleft ↦ .conditional hleft ihTrue ihFalse
  | operator sign op hsign operand rest ihOperand ihRest =>
    exact fun left hleft ↦ ihRest _ (.binary hleft ihOperand.operand)
  | prefixed sign op hsign operand ih => exact .unary ih
  | step sign op hsign hop rest ih =>
    intro left hleft
    have htakes : op.Takes none [] := by
      rcases SuffixOp.isStep_iff.1 hop with rfl | rfl <;> exact ⟨rfl, rfl⟩
    exact ih _ (.suffixed hleft htakes (by simp))
  | selection sign op hsign hop member hmember rest ih =>
    intro left hleft
    have htakes : op.Takes (some member) [] := by
      rcases SuffixOp.isSelection_iff.1 hop with rfl | rfl <;>
        exact ⟨⟨member, rfl, hmember⟩, rfl⟩
    exact ih _ (.suffixed hleft htakes (by simp))
  | index opening hopening body closing hclosing rest ihBody ihRest =>
    intro left hleft
    have hindex : ∀ operand ∈ [body.expr], operand.WellFormed := List.forall_mem_singleton.2 ihBody
    exact ihRest _ (.suffixed hleft ⟨rfl, body.expr, rfl⟩ hindex)
  | call opening hopening list closing hclosing rest ihList ihRest =>
    intro left hleft
    exact ihRest _ (.suffixed hleft rfl ihList)
  | noArguments | noArgument => exact List.forall_mem_nil _
  | arguments first rest ihFirst ihRest | argument _ _ first rest ihFirst ihRest =>
    exact List.forall_mem_cons.2 ⟨ihFirst, ihRest⟩
  | atom token htoken => exact .primary htoken
  | group opening hopening body closing hclosing ih => exact ih

end Derivation

/-! ## Written forms -/

namespace Expr

theorem isLegible_of_hasParts {expr : Expr} (h : expr.HasParts) : expr.IsLegible := by
  cases expr with
  | primary token =>
    have hsubset : [Kind.identifier, Kind.constant, Kind.stringLiteral] ⊆ Kind.classes := by decide
    exact hsubset h
  | suffixed op left member operands location =>
    intro token hmember
    obtain rfl : member = some token := hmember
    simp [Kind.classes, SuffixOp.Takes.kind_member h]
  | unary | binary | conditional | assign => trivial
  | declaration => cases h

theorem WellFormed.legible {expr : Expr} (h : expr.WellFormed) : expr.Legible :=
  h.mono fun _ ↦ isLegible_of_hasParts

theorem writeOperands_erase {operands : List Expr}
    (h : ∀ operand ∈ operands, ∀ printer : Printer,
      printer.write operand.erase = printer.write operand) (printer : Printer) :
    printer.writeOperands (eraseAll operands) = printer.writeOperands operands := by
  induction operands generalizing printer with
  | nil => rfl
  | cons operand operands ih =>
    obtain ⟨hoperand, hoperands⟩ := List.forall_mem_cons.1 h
    rw [eraseAll, Printer.writeOperands, Printer.writeOperands, hoperand, ih hoperands]

/-- A legible expression is written without the texts and places of its tokens. -/
theorem Legible.write_erase {expr : Expr} (h : expr.Legible) (printer : Printer) :
    printer.write expr.erase = printer.write expr := by
  induction h generalizing printer with
  | @intro expr here inside ih =>
    cases expr with
    | primary token => simp [erase, Printer.write, Token.className_erase here]
    | suffixed op left member operands location =>
      obtain ⟨hleft, hoperands⟩ := List.forall_mem_cons.1 ih
      cases member with
      | none => simp [erase, Printer.write, hleft, writeOperands_erase hoperands]
      | some token =>
        simp [erase, Printer.write, hleft, writeOperands_erase hoperands,
          Token.className_erase (here token rfl)]
    | unary | binary | conditional | assign => simp_all [erase, Printer.write, children]
    | declaration => rfl

theorem Legible.render_erase {expr : Expr} (h : expr.Legible) : expr.erase.render = expr.render :=
  congrArg Printer.text (h.write_erase Printer.empty)

/-- Legible expressions that differ in nothing but texts and places are written the same. -/
theorem render_eq_of_erase_eq {first second : Expr} (hfirst : first.Legible)
    (hsecond : second.Legible) (h : first.erase = second.erase) :
    first.render = second.render := by
  rw [← hfirst.render_erase, h, hsecond.render_erase]

end Expr

end CExpr
