import CExpr.Expr.Basic
import CExpr.Expr.TreeError

/-!
# Expressions of parse trees

A parse tree keeps the operators of a tier, the suffixes and the arguments in chains that run to the
right. The expression of a tree folds each chain from the left, so that operators and suffixes apply
in the order in which they are written. Rules that add nothing pass on the expression of their one
child.

Errors come in the order of the parts: a part is looked up only when everything before it is built.
-/

namespace CExpr.Expr

mutual

/-- The expression of a node. -/
def ofNode (node : Node) : Except TreeError Expr :=
  match node.tag with
  | .expression | .cast => do
    let ⟨inner, _⟩ ← node.child 0
    ofNode inner
  | .assignment => do
    let ⟨left, _⟩ ← node.childTagged 0 .conditional
    let target ← ofNode left
    let ⟨rest, _⟩ ← node.childTagged 1 .assignmentRest
    if rest.isEmpty then .ok target
    else do
      let sign ← rest.terminal 0
      let op ← rest.meaning sign AssignOp.ofKind?
      let ⟨right, _⟩ ← rest.childTagged 0 .assignment
      let value ← ofNode right
      .ok (.assign op target value sign.location)
  | .conditional => do
    let ⟨first, _⟩ ← node.childTagged 0 (.tier .loosest)
    let condition ← ofNode first
    let ⟨rest, _⟩ ← node.childTagged 1 .conditionalRest
    if rest.isEmpty then .ok condition
    else do
      let question ← rest.terminal 0
      let ⟨second, _⟩ ← rest.childTagged 0 .expression
      let whenTrue ← ofNode second
      let ⟨third, _⟩ ← rest.childTagged 1 .conditional
      let whenFalse ← ofNode third
      .ok (.conditional condition whenTrue whenFalse question.location)
  | .tier tier => do
    let ⟨first, _⟩ ← node.child 0
    let left ← ofNode first
    let ⟨rest, _⟩ ← node.childTagged 1 (.tierRest tier)
    foldTier tier left rest
  | .unary =>
    match node.terminals.head? with
    | none => do
      let ⟨inner, _⟩ ← node.childTagged 0 .suffixed
      ofNode inner
    | some sign => do
      let op ← node.meaning sign UnaryOp.ofKind?
      let ⟨inner, _⟩ ← node.childTagged 0 .cast
      let operand ← ofNode inner
      .ok (.unary op operand sign.location)
  | .suffixed => do
    let ⟨first, _⟩ ← node.childTagged 0 .primary
    let left ← ofNode first
    let ⟨rest, _⟩ ← node.childTagged 1 .suffixedRest
    foldSuffixes left rest
  | .primary => do
    let token ← node.terminal 0
    match token.kind with
    | .identifier | .constant | .stringLiteral => .ok (.primary token)
    | .punct '(' => do
      let ⟨inner, _⟩ ← node.childTagged 0 .expression
      ofNode inner
    | _ => .error (.unexpectedToken node.tag token.lexeme)
  | tag => .error (.noExpression tag)
termination_by sizeOf node
decreasing_by all_goals omega

/-- The operators of a tier applied to a first operand from left to right. -/
def foldTier (tier : Tier) (left : Expr) (rest : Node) : Except TreeError Expr :=
  if rest.isEmpty then .ok left
  else do
    let sign ← rest.terminal 0
    let op ← rest.meaning sign tier.operator?
    let ⟨operand, _⟩ ← rest.child 0
    let right ← ofNode operand
    let ⟨next, _⟩ ← rest.childTagged 1 (.tierRest tier)
    foldTier tier (.binary op left right sign.location) next
termination_by sizeOf rest
decreasing_by all_goals omega

/-- The suffixes applied to a first operand from left to right. -/
def foldSuffixes (left : Expr) (rest : Node) : Except TreeError Expr :=
  if rest.isEmpty then .ok left
  else do
    let sign ← rest.terminal 0
    let op ← rest.meaning sign SuffixOp.ofKind?
    match op with
    | .increment | .decrement => do
      let ⟨next, _⟩ ← rest.childTagged 0 .suffixedRest
      foldSuffixes (.suffixed op left none [] sign.location) next
    | .arrow | .dot => do
      let member ← rest.terminal 1
      let ⟨next, _⟩ ← rest.childTagged 0 .suffixedRest
      foldSuffixes (.suffixed op left (some member) [] sign.location) next
    | .index => do
      let ⟨inner, _⟩ ← rest.childTagged 0 .expression
      let index ← ofNode inner
      let ⟨next, _⟩ ← rest.childTagged 1 .suffixedRest
      foldSuffixes (.suffixed op left none [index] sign.location) next
    | .call => do
      let ⟨list, _⟩ ← rest.childTagged 0 .argumentList
      let arguments ← argumentsOf list
      let ⟨next, _⟩ ← rest.childTagged 1 .suffixedRest
      foldSuffixes (.suffixed op left none arguments sign.location) next
termination_by sizeOf rest
decreasing_by all_goals omega

/-- The arguments of a call in order. -/
def argumentsOf (list : Node) : Except TreeError (List Expr) :=
  if list.isEmpty then .ok []
  else do
    let ⟨first, _⟩ ← list.childTagged 0 .assignment
    let argument ← ofNode first
    let ⟨rest, _⟩ ← list.childTagged 1 .argumentListRest
    let arguments ← furtherArguments rest
    .ok (argument :: arguments)
termination_by sizeOf list
decreasing_by all_goals omega

/-- The arguments after the first one, in order. -/
def furtherArguments (rest : Node) : Except TreeError (List Expr) :=
  if rest.isEmpty then .ok []
  else do
    let ⟨first, _⟩ ← rest.childTagged 0 .assignment
    let argument ← ofNode first
    let ⟨next, _⟩ ← rest.childTagged 1 .argumentListRest
    let arguments ← furtherArguments next
    .ok (argument :: arguments)
termination_by sizeOf rest
decreasing_by all_goals omega

end

/-- The arguments of a call are built as those after the first one are. -/
theorem argumentsOf_eq_furtherArguments (list : Node) :
    argumentsOf list = furtherArguments list := by
  rw [argumentsOf, furtherArguments]

/-- The expression of a whole parse tree. -/
def ofTree (root : Node) : Except TreeError Expr :=
  if root.tag = .root then do
    let ⟨inner, _⟩ ← root.childTagged 0 .expression
    ofNode inner
  else .error (.notRoot root.tag)

end CExpr.Expr
