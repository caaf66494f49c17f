import CExpr.Expr.OfTree
import CExpr.Proofs.Grammar.Derivation

/-!
# Expressions of derivations

The expression of a derivation, read off its constructors: a rest goes on from the expression on its
left, and everything else has an expression of its own. Built from the tree of the derivation, the
expression is the same, so building the tree of a derivation never fails.
-/

namespace CExpr.Derivation

mutual

/-- The expression of a derivation. Rests and arguments have none of their own. -/
def expr : {rule : NonTerminal} → Derivation rule → Expr
  | _, root body _ _ => body.expr
  | _, expression body => body.expr
  | _, assignment target rest => rest.after target.expr
  | _, conditional condition rest => rest.after condition.expr
  | _, tier first rest => rest.after first.expr
  | _, cast body => body.expr
  | _, prefixed sign op _ operand => .unary op operand.expr sign.location
  | _, unprefixed body => body.expr
  | _, suffixed first rest => rest.after first.expr
  | _, atom token _ => .primary token
  | _, group _ _ body _ _ => body.expr
  | _, _ => .declaration

/-- The expression of a rest with what stands on its left. -/
def after (left : Expr) : {rule : NonTerminal} → Derivation rule → Expr
  | _, assign sign op _ value => .assign op left value.expr sign.location
  | _, choice question _ whenTrue _ _ whenFalse =>
    .conditional left whenTrue.expr whenFalse.expr question.location
  | _, operator sign op _ operand rest => rest.after (.binary op left operand.expr sign.location)
  | _, step sign op _ _ rest => rest.after (.suffixed op left none [] sign.location)
  | _, selection sign op _ _ member _ rest =>
    rest.after (.suffixed op left (some member) [] sign.location)
  | _, index opening _ body _ _ rest =>
    rest.after (.suffixed .index left none [body.expr] opening.location)
  | _, call opening _ list _ _ rest =>
    rest.after (.suffixed .call left none list.exprs opening.location)
  | _, _ => left

/-- The expressions of arguments. -/
def exprs : {rule : NonTerminal} → Derivation rule → List Expr
  | _, arguments first rest => first.expr :: rest.exprs
  | _, argument _ _ first rest => first.expr :: rest.exprs
  | _, _ => []

end

open CExpr.Expr (ofNode ofTree foldTier foldSuffixes argumentsOf furtherArguments)
open Node (childTagged_eq_ok child_eq_ok)

/-- What is built from the tree of a derivation, after a left operand when the rule is a rest. -/
def Builds : {rule : NonTerminal} → Derivation rule → Prop
  | .root, derivation => ofTree derivation.toNode = .ok derivation.expr
  | .assignmentRest, rest => ∀ first left, first.tag = .conditional → ofNode first = .ok left →
    ofNode ⟨.assignment, false, [], [first, rest.toNode]⟩ = .ok (rest.after left)
  | .conditionalRest, rest => ∀ first left, first.tag = .tier .loosest → ofNode first = .ok left →
    ofNode ⟨.conditional, false, [], [first, rest.toNode]⟩ = .ok (rest.after left)
  | .tierRest t, rest => ∀ left, foldTier t left rest.toNode = .ok (rest.after left)
  | .suffixedRest, rest => ∀ left, foldSuffixes left rest.toNode = .ok (rest.after left)
  | .argumentList, list => argumentsOf list.toNode = .ok list.exprs
  | .argumentListRest, rest => furtherArguments rest.toNode = .ok rest.exprs
  | _, derivation => ofNode derivation.toNode = .ok derivation.expr

theorem Builds.ofNode_operand {t : Tier} {operand : Derivation t.operand} (h : operand.Builds) :
    ofNode operand.toNode = .ok operand.expr := by
  cases t <;> exact h

/-- Building undoes what the constructors of a derivation do to its tree. -/
theorem builds {rule : NonTerminal} (derivation : Derivation rule) : derivation.Builds := by
  induction derivation with
  | root body stop hstop ih =>
    simp only [Builds] at ih ⊢
    simp [ofTree, toNode, childTagged_eq_ok, ih, expr, bind, Except.bind]
  | expression body ih =>
    simp only [Builds] at ih ⊢
    rw [ofNode]
    simp [toNode, child_eq_ok, ih, expr, bind, Except.bind]
  | assignment target rest ihTarget ihRest => exact ihRest _ _ target.tag_toNode ihTarget
  | noAssignment =>
    intro first left htag hfirst
    rw [ofNode]
    simp [toNode, childTagged_eq_ok, htag, hfirst, after, bind, Except.bind]
  | assign sign op hsign value ih =>
    intro first left htag hfirst
    simp only [Builds] at ih
    rw [ofNode]
    simp [toNode, childTagged_eq_ok, htag, hfirst, Node.terminal, Node.meaning, hsign, ih, after,
      bind, Except.bind]
  | conditional condition rest ihCondition ihRest =>
    exact ihRest _ _ condition.tag_toNode ihCondition
  | noChoice =>
    intro first left htag hfirst
    rw [ofNode]
    simp [toNode, childTagged_eq_ok, htag, hfirst, after, bind, Except.bind]
  | choice question hquestion whenTrue colon hcolon whenFalse ihTrue ihFalse =>
    intro first left htag hfirst
    simp only [Builds] at ihTrue ihFalse
    rw [ofNode]
    simp [toNode, childTagged_eq_ok, htag, hfirst, Node.terminal, ihTrue, ihFalse, after,
      bind, Except.bind]
  | tier first rest ihFirst ihRest =>
    have hfirst := ihFirst.ofNode_operand
    simp only [Builds] at ihRest ⊢
    rw [ofNode]
    simp [toNode, child_eq_ok, childTagged_eq_ok, hfirst, ihRest, expr, bind, Except.bind]
  | noOperator =>
    intro left
    rw [foldTier]
    simp [toNode, after]
  | operator sign op hsign operand rest ihOperand ihRest =>
    intro left
    have hoperand := ihOperand.ofNode_operand
    simp only [Builds] at ihRest
    rw [foldTier]
    simp [toNode, Node.terminal, Node.meaning, hsign, child_eq_ok, childTagged_eq_ok, hoperand,
      ihRest, after, bind, Except.bind]
  | cast body ih =>
    simp only [Builds] at ih ⊢
    rw [ofNode]
    simp [toNode, child_eq_ok, ih, expr, bind, Except.bind]
  | prefixed sign op hsign operand ih =>
    simp only [Builds] at ih ⊢
    rw [ofNode]
    simp [toNode, Node.meaning, hsign, childTagged_eq_ok, ih, expr, bind, Except.bind]
  | unprefixed body ih =>
    simp only [Builds] at ih ⊢
    rw [ofNode]
    simp [toNode, childTagged_eq_ok, ih, expr, bind, Except.bind]
  | suffixed first rest ihFirst ihRest =>
    simp only [Builds] at ihFirst ihRest ⊢
    rw [ofNode]
    simp [toNode, childTagged_eq_ok, ihFirst, ihRest, expr, bind, Except.bind]
  | noSuffix =>
    intro left
    rw [foldSuffixes]
    simp [toNode, after]
  | step sign op hsign hop rest ih =>
    intro left
    simp only [Builds] at ih
    rw [foldSuffixes]
    rcases SuffixOp.isStep_iff.1 hop with rfl | rfl <;>
      simp [toNode, Node.terminal, Node.meaning, hsign, childTagged_eq_ok, ih, after, bind,
        Except.bind]
  | selection sign op hsign hop member hmember rest ih =>
    intro left
    simp only [Builds] at ih
    rw [foldSuffixes]
    rcases SuffixOp.isSelection_iff.1 hop with rfl | rfl <;>
      simp [toNode, Node.terminal, Node.meaning, hsign, childTagged_eq_ok, ih, after, bind,
        Except.bind]
  | index opening hopening body closing hclosing rest ihBody ihRest =>
    intro left
    have hop : SuffixOp.ofKind? opening.kind = some .index := by rw [hopening]; rfl
    simp only [Builds] at ihBody ihRest
    rw [foldSuffixes]
    simp [toNode, Node.terminal, Node.meaning, hop, childTagged_eq_ok, ihBody, ihRest, after, bind,
      Except.bind]
  | call opening hopening list closing hclosing rest ihList ihRest =>
    intro left
    have hop : SuffixOp.ofKind? opening.kind = some .call := by rw [hopening]; rfl
    simp only [Builds] at ihList ihRest
    rw [foldSuffixes]
    simp [toNode, Node.terminal, Node.meaning, hop, childTagged_eq_ok, ihList, ihRest, after, bind,
      Except.bind]
  | noArguments =>
    simp only [Builds]
    rw [argumentsOf]
    simp [toNode, exprs]
  | arguments first rest ihFirst ihRest =>
    simp only [Builds] at ihFirst ihRest ⊢
    rw [argumentsOf]
    simp [toNode, childTagged_eq_ok, ihFirst, ihRest, exprs, bind, Except.bind]
  | noArgument =>
    simp only [Builds]
    rw [furtherArguments]
    simp [toNode, exprs]
  | argument comma hcomma first rest ihFirst ihRest =>
    simp only [Builds] at ihFirst ihRest ⊢
    rw [furtherArguments]
    simp [toNode, childTagged_eq_ok, ihFirst, ihRest, exprs, bind, Except.bind]
  | atom token htoken =>
    simp only [Builds]
    rw [ofNode]
    simp only [List.mem_cons, List.not_mem_nil, or_false] at htoken
    rcases htoken with h | h | h <;> simp [toNode, Node.terminal, h, expr, bind, Except.bind]
  | group opening hopening body closing hclosing ih =>
    simp only [Builds] at ih ⊢
    rw [ofNode]
    simp [toNode, Node.terminal, hopening, childTagged_eq_ok, ih, expr, bind, Except.bind]

theorem ofTree_toNode (derivation : Derivation .root) :
    ofTree derivation.toNode = .ok derivation.expr :=
  derivation.builds

end CExpr.Derivation
