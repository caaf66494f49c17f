import CExpr.Proofs.Expr.OfDerivation
import CExpr.Proofs.Parse.Trees
import Mathlib.Data.List.Forall2

/-!
# Writing out expressions

An expression written out is a list of marks, one for each token that it needs: operands and members
as whole tokens, operators with their place, and the signs that separate and close. The marks of a
parsed expression are fitted one by one by the tokens of its parse, once the parentheses of primary
expressions are taken out.
-/

namespace CExpr

/-- The sign after the operands of a suffix. -/
def SuffixOp.closing : SuffixOp → List Kind
  | index => [.punct ']']
  | call => [.punct ')']
  | increment | decrement | arrow | dot => []

inductive Mark
  | word (token : Token)
  | unary (op : UnaryOp) (location : Location)
  | suffix (op : SuffixOp) (location : Location)
  | binary (op : BinaryOp) (location : Location)
  | question (location : Location)
  | assign (op : AssignOp) (location : Location)
  /-- A sign whose place an expression does not keep. -/
  | sign (kind : Kind)

namespace Mark

/-- A token of the kind can be written for the mark. -/
def Reads (kind : Kind) : Mark → Prop
  | word token => token.kind = kind
  | unary op _ => UnaryOp.ofKind? kind = some op
  | suffix op _ => SuffixOp.ofKind? kind = some op
  | binary op _ => op.tier.operator? kind = some op
  | question _ => .punct '?' = kind
  | assign op _ => AssignOp.ofKind? kind = some op
  | sign expected => expected = kind

/-- The token is of a kind that can be written for the mark. -/
def Admits (mark : Mark) (token : Token) : Prop := mark.Reads token.kind

/-- What the mark keeps of its token is what the token has. -/
def Keeps (token : Token) : Mark → Prop
  | word written => written = token
  | unary _ location | suffix _ location | binary _ location | question location
  | assign _ location => location = token.location
  | sign _ => True

/-- The token is the one that was read for the mark. -/
structure Fits (mark : Mark) (token : Token) : Prop where
  reads : mark.Reads token.kind
  keeps : mark.Keeps token

end Mark

namespace Expr

mutual

/-- The marks of an expression from left to right. -/
def marks : Expr → List Mark
  | primary token => [.word token]
  | suffixed op left member operands location =>
    left.marks ++ .suffix op location :: (member.toList.map .word ++ marksOfAll operands ++
      op.closing.map .sign)
  | unary op operand location => .unary op location :: operand.marks
  | binary op left right location => left.marks ++ .binary op location :: right.marks
  | conditional condition whenTrue whenFalse location =>
    condition.marks ++ .question location ::
      (whenTrue.marks ++ .sign (.punct ':') :: whenFalse.marks)
  | assign op target value location => target.marks ++ .assign op location :: value.marks
  | declaration => []

/-- The marks of operands with commas between them. -/
def marksOfAll : List Expr → List Mark
  | [] => []
  | expr :: exprs => expr.marks ++ furtherMarks exprs

/-- The marks of operands with a comma before each. -/
def furtherMarks : List Expr → List Mark
  | [] => []
  | expr :: exprs => .sign (.punct ',') :: (expr.marks ++ furtherMarks exprs)

end

end Expr

namespace Derivation

open CExpr.Expr (marksOfAll furtherMarks)

/-- Written out, the expression of a derivation is its tokens without those that group. A rest
goes on from an expression on its left. -/
def Written : {rule : NonTerminal} → Derivation rule → Prop
  | .root, _ => True
  | .assignmentRest, rest | .conditionalRest, rest | .tierRest _, rest | .suffixedRest, rest =>
    ∀ left front, List.Forall₂ Mark.Fits left.marks front →
      List.Forall₂ Mark.Fits (rest.after left).marks (front ++ rest.ungrouped)
  | .argumentList, list => List.Forall₂ Mark.Fits (marksOfAll list.exprs) list.ungrouped
  | .argumentListRest, rest => List.Forall₂ Mark.Fits (furtherMarks rest.exprs) rest.ungrouped
  | _, derivation => List.Forall₂ Mark.Fits derivation.expr.marks derivation.ungrouped

theorem Written.operand {t : Tier} {operand : Derivation t.operand} (h : operand.Written) :
    List.Forall₂ Mark.Fits operand.expr.marks operand.ungrouped := by
  cases t <;> exact h

/-- A suffix is written after what it applies to. -/
theorem forall₂_marks_suffixed {op : SuffixOp} {left : Expr} {member : Option Token}
    {operands : List Expr} {sign : Token} {front words closers : List Token}
    (hleft : List.Forall₂ Mark.Fits left.marks front)
    (hsign : SuffixOp.ofKind? sign.kind = some op)
    (hwords : List.Forall₂ Mark.Fits (member.toList.map .word ++ marksOfAll operands) words)
    (hclosers : List.Forall₂ Mark.Fits (op.closing.map .sign) closers) :
    List.Forall₂ Mark.Fits (Expr.suffixed op left member operands sign.location).marks
      (front ++ sign :: (words ++ closers)) := by
  have hsuffix : Mark.Fits (.suffix op sign.location) sign := ⟨hsign, rfl⟩
  rw [Expr.marks]
  exact List.rel_append hleft (.cons hsuffix (List.rel_append hwords hclosers))

/-- The tokens of a parse, without those that group, are those that its expression writes. -/
theorem written {rule : NonTerminal} (derivation : Derivation rule) : derivation.Written := by
  induction derivation with
  | root => trivial
  | expression body ih => exact ih
  | assignment target rest ihTarget ihRest =>
    simpa [Written, ungrouped, expr] using ihRest _ _ ihTarget
  | noAssignment | noChoice | noOperator | noSuffix =>
    intro left front h
    simpa [ungrouped, after] using h
  | assign sign op hsign value ih =>
    intro left front h
    have hvalue : List.Forall₂ Mark.Fits (.assign op sign.location :: value.expr.marks)
        (sign :: value.ungrouped) := .cons ⟨hsign, rfl⟩ ih
    simpa [ungrouped, after, Expr.marks] using List.rel_append h hvalue
  | conditional condition rest ihCondition ihRest =>
    simpa [Written, ungrouped, expr] using ihRest _ _ ihCondition
  | choice question hquestion whenTrue colon hcolon whenFalse ihTrue ihFalse =>
    intro left front h
    have hfalse : List.Forall₂ Mark.Fits (.sign (.punct ':') :: whenFalse.expr.marks)
        (colon :: whenFalse.ungrouped) := .cons ⟨hcolon.symm, trivial⟩ ihFalse
    have hchoice : List.Forall₂ Mark.Fits
        (.question question.location ::
          (whenTrue.expr.marks ++ .sign (.punct ':') :: whenFalse.expr.marks))
        (question :: (whenTrue.ungrouped ++ colon :: whenFalse.ungrouped)) :=
      .cons ⟨hquestion.symm, rfl⟩ (List.rel_append ihTrue hfalse)
    simpa [ungrouped, after, Expr.marks] using List.rel_append h hchoice
  | tier first rest ihFirst ihRest =>
    simpa [Written, ungrouped, expr] using ihRest _ _ ihFirst.operand
  | @operator t sign op hsign operand rest ihOperand ihRest =>
    intro left front h
    have htier : op.tier.operator? sign.kind = some op := by
      rwa [Tier.tier_of_operator? hsign]
    have hoperand : List.Forall₂ Mark.Fits (.binary op sign.location :: operand.expr.marks)
        (sign :: operand.ungrouped) := .cons ⟨htier, rfl⟩ ihOperand.operand
    have hleft := ihRest (.binary op left operand.expr sign.location) _ (by
      rw [Expr.marks]
      exact List.rel_append h hoperand)
    simpa [ungrouped, after] using hleft
  | cast body ih => exact ih
  | prefixed sign op hsign operand ih =>
    have hoperand : List.Forall₂ Mark.Fits (.unary op sign.location :: operand.expr.marks)
        (sign :: operand.ungrouped) := .cons ⟨hsign, rfl⟩ ih
    simpa [Written, ungrouped, expr, Expr.marks] using hoperand
  | unprefixed body ih => exact ih
  | suffixed first rest ihFirst ihRest =>
    simpa [Written, ungrouped, expr] using ihRest _ _ ihFirst
  | step sign op hsign hop rest ih =>
    intro left front h
    have hclosers : List.Forall₂ Mark.Fits (op.closing.map .sign) [] := by
      rcases SuffixOp.isStep_iff.1 hop with rfl | rfl <;> exact .nil
    have hwords : List.Forall₂ Mark.Fits ([] ++ marksOfAll []) [] := .nil
    have hleft := ih (.suffixed op left none [] sign.location) _
      (forall₂_marks_suffixed h hsign hwords hclosers)
    simpa [ungrouped, after] using hleft
  | selection sign op hsign hop member hmember rest ih =>
    intro left front h
    have hclosers : List.Forall₂ Mark.Fits (op.closing.map .sign) [] := by
      rcases SuffixOp.isSelection_iff.1 hop with rfl | rfl <;> exact .nil
    have hwords : List.Forall₂ Mark.Fits ([.word member] ++ marksOfAll []) [member] :=
      .cons ⟨rfl, rfl⟩ .nil
    have hleft := ih (.suffixed op left (some member) [] sign.location) _
      (forall₂_marks_suffixed h hsign hwords hclosers)
    simpa [ungrouped, after] using hleft
  | index opening hopening body closing hclosing rest ihBody ihRest =>
    intro left front h
    have hop : SuffixOp.ofKind? opening.kind = some .index := by rw [hopening]; rfl
    have hclosers : List.Forall₂ Mark.Fits (SuffixOp.index.closing.map .sign) [closing] :=
      .cons ⟨hclosing.symm, trivial⟩ .nil
    have hbody : List.Forall₂ Mark.Fits body.expr.marks body.ungrouped := ihBody
    have hwords : List.Forall₂ Mark.Fits ([] ++ marksOfAll [body.expr]) body.ungrouped := by
      simpa [marksOfAll, furtherMarks] using hbody
    have hleft := ihRest (.suffixed .index left none [body.expr] opening.location) _
      (forall₂_marks_suffixed h hop hwords hclosers)
    simpa [ungrouped, after] using hleft
  | call opening hopening list closing hclosing rest ihList ihRest =>
    intro left front h
    have hop : SuffixOp.ofKind? opening.kind = some .call := by rw [hopening]; rfl
    have hclosers : List.Forall₂ Mark.Fits (SuffixOp.call.closing.map .sign) [closing] :=
      .cons ⟨hclosing.symm, trivial⟩ .nil
    have hwords : List.Forall₂ Mark.Fits ([] ++ marksOfAll list.exprs) list.ungrouped := ihList
    have hleft := ihRest (.suffixed .call left none list.exprs opening.location) _
      (forall₂_marks_suffixed h hop hwords hclosers)
    simpa [ungrouped, after] using hleft
  | noArguments | noArgument => exact .nil
  | arguments first rest ihFirst ihRest =>
    simpa [Written, ungrouped, exprs, marksOfAll] using List.rel_append ihFirst ihRest
  | argument comma hcomma first rest ihFirst ihRest =>
    have hfirst : List.Forall₂ Mark.Fits
        (.sign (.punct ',') :: (first.expr.marks ++ furtherMarks rest.exprs))
        (comma :: (first.ungrouped ++ rest.ungrouped)) :=
      .cons ⟨hcomma.symm, trivial⟩ (List.rel_append ihFirst ihRest)
    simpa [Written, ungrouped, exprs, furtherMarks] using hfirst
  | atom token htoken => exact .cons ⟨rfl, rfl⟩ .nil
  | group opening hopening body closing hclosing ih =>
    simpa [Written, ungrouped, expr] using ih

end Derivation

/-- Written out, the expression of a parse is the tokens before the first end without the
parentheses of primary expressions. -/
theorem marks_fit_of_parse_eq_ok {tokens : List Token} {root : Node} {expr : Expr}
    (h : parse tokens = .ok root) (hexpr : Expr.ofTree root = .ok expr) :
    ∃ body : Derivation .expression, root.children = [body.toNode] ∧
      body.tokens = tokens.takeWhile Parse.Input.isWord ∧
      List.Forall₂ Mark.Fits expr.marks body.ungrouped := by
  obtain ⟨body, stop, hstop, rfl, hwords⟩ := exists_body_of_parse h
  rw [Derivation.ofTree_toNode] at hexpr
  cases hexpr
  exact ⟨body, rfl, hwords, body.written⟩

theorem marks_fit_sample :
    parse Derivation.sample.tokens = .ok Derivation.sample.toNode ∧
      Expr.ofTree Derivation.sample.toNode = .ok Derivation.sample.expr ∧
      ∃ body : Derivation .expression, Derivation.sample.toNode.children = [body.toNode] ∧
        body.tokens = Derivation.sample.tokens.takeWhile Parse.Input.isWord ∧
        List.Forall₂ Mark.Fits Derivation.sample.expr.marks body.ungrouped := by
  have h := Derivation.parse_sample
  have hexpr := Derivation.sample.ofTree_toNode
  exact ⟨h, hexpr, marks_fit_of_parse_eq_ok h hexpr⟩

end CExpr
