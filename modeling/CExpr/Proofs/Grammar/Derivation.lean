import CExpr.Grammar.Node

/-!
# Derivations

The grammar of expressions written out, one constructor for each of its productions. A derivation of
a rule holds the tokens and the derivations that its production names, together with what the
production asks of the tokens, so nothing but a derivation can be built.

```text
root               = expression end
expression         = assignment
assignment         = conditional assignment_rest
assignment_rest    = assign_op assignment | ε
conditional        = logical_or conditional_rest
conditional_rest   = "?" expression ":" conditional | ε
<tier>             = <operand> <tier>_rest
<tier>_rest        = <op> <operand> <tier>_rest | ε
cast               = unary
unary              = prefix_op cast | postfix
postfix            = primary postfix_rest
postfix_rest       = "++" postfix_rest | "--" postfix_rest
                   | "->" IDENT postfix_rest | "." IDENT postfix_rest
                   | "[" expression "]" postfix_rest
                   | "(" argument_list ")" postfix_rest | ε
argument_list      = assignment argument_list_rest | ε
argument_list_rest = "," assignment argument_list_rest | ε
primary            = IDENT | CONSTANT | STRING | "(" expression ")"
```

Every derivation has a tree and a list of tokens.
-/

namespace CExpr

namespace SuffixOp

/-- The suffixes that are one sign. -/
def isStep : SuffixOp → Bool
  | increment | decrement => true
  | _ => false

/-- The suffixes that name a member. -/
def isSelection : SuffixOp → Bool
  | arrow | dot => true
  | _ => false

variable {op : SuffixOp}

theorem isStep_iff : op.isStep = true ↔ op = .increment ∨ op = .decrement := by
  cases op <;> decide

theorem isSelection_iff : op.isSelection = true ↔ op = .arrow ∨ op = .dot := by
  cases op <;> decide

end SuffixOp

inductive Derivation : NonTerminal → Type
  | root (body : Derivation .expression) (stop : Token) (hstop : stop.kind = .endOfInput) :
      Derivation .root
  | expression (body : Derivation .assignment) : Derivation .expression
  | assignment (target : Derivation .conditional) (rest : Derivation .assignmentRest) :
      Derivation .assignment
  | noAssignment : Derivation .assignmentRest
  | assign (sign : Token) (op : AssignOp) (hsign : AssignOp.ofKind? sign.kind = some op)
      (value : Derivation .assignment) : Derivation .assignmentRest
  | conditional (condition : Derivation (.tier .loosest)) (rest : Derivation .conditionalRest) :
      Derivation .conditional
  | noChoice : Derivation .conditionalRest
  | choice (question : Token) (hquestion : question.kind = .punct '?')
      (whenTrue : Derivation .expression) (colon : Token) (hcolon : colon.kind = .punct ':')
      (whenFalse : Derivation .conditional) : Derivation .conditionalRest
  | tier {tier : Tier} (first : Derivation tier.operand) (rest : Derivation (.tierRest tier)) :
      Derivation (.tier tier)
  | noOperator {tier : Tier} : Derivation (.tierRest tier)
  | operator {tier : Tier} (sign : Token) (op : BinaryOp)
      (hsign : tier.operator? sign.kind = some op) (operand : Derivation tier.operand)
      (rest : Derivation (.tierRest tier)) : Derivation (.tierRest tier)
  | cast (body : Derivation .unary) : Derivation .cast
  | prefixed (sign : Token) (op : UnaryOp) (hsign : UnaryOp.ofKind? sign.kind = some op)
      (operand : Derivation .cast) : Derivation .unary
  | unprefixed (body : Derivation .suffixed) : Derivation .unary
  | suffixed (first : Derivation .primary) (rest : Derivation .suffixedRest) :
      Derivation .suffixed
  | noSuffix : Derivation .suffixedRest
  | step (sign : Token) (op : SuffixOp) (hsign : SuffixOp.ofKind? sign.kind = some op)
      (hop : op.isStep = true) (rest : Derivation .suffixedRest) : Derivation .suffixedRest
  | selection (sign : Token) (op : SuffixOp) (hsign : SuffixOp.ofKind? sign.kind = some op)
      (hop : op.isSelection = true) (member : Token) (hmember : member.kind = .identifier)
      (rest : Derivation .suffixedRest) : Derivation .suffixedRest
  | index (opening : Token) (hopening : opening.kind = .punct '[')
      (body : Derivation .expression) (closing : Token) (hclosing : closing.kind = .punct ']')
      (rest : Derivation .suffixedRest) : Derivation .suffixedRest
  | call (opening : Token) (hopening : opening.kind = .punct '(')
      (list : Derivation .argumentList) (closing : Token) (hclosing : closing.kind = .punct ')')
      (rest : Derivation .suffixedRest) : Derivation .suffixedRest
  | noArguments : Derivation .argumentList
  | arguments (first : Derivation .assignment) (rest : Derivation .argumentListRest) :
      Derivation .argumentList
  | noArgument : Derivation .argumentListRest
  | argument (comma : Token) (hcomma : comma.kind = .punct ',') (first : Derivation .assignment)
      (rest : Derivation .argumentListRest) : Derivation .argumentListRest
  | atom (token : Token)
      (htoken : token.kind ∈ [Kind.identifier, Kind.constant, Kind.stringLiteral]) :
      Derivation .primary
  | group (opening : Token) (hopening : opening.kind = .punct '(')
      (body : Derivation .expression) (closing : Token) (hclosing : closing.kind = .punct ')') :
      Derivation .primary

/-- A token of a derivation, with a mark on the parentheses of a primary expression. -/
structure Leaf where
  token : Token
  groups : Bool

namespace Leaf

@[simp] def plain (token : Token) : Leaf := ⟨token, false⟩

@[simp] def parenthesis (token : Token) : Leaf := ⟨token, true⟩

end Leaf

namespace Derivation

/-- The tree of a derivation. -/
def toNode : {rule : NonTerminal} → Derivation rule → Node
  | _, root body stop _ => ⟨.root, false, [stop], [body.toNode]⟩
  | _, expression body => ⟨.expression, false, [], [body.toNode]⟩
  | _, assignment target rest => ⟨.assignment, false, [], [target.toNode, rest.toNode]⟩
  | _, noAssignment => ⟨.assignmentRest, true, [], []⟩
  | _, assign sign _ _ value => ⟨.assignmentRest, false, [sign], [value.toNode]⟩
  | _, conditional condition rest => ⟨.conditional, false, [], [condition.toNode, rest.toNode]⟩
  | _, noChoice => ⟨.conditionalRest, true, [], []⟩
  | _, choice question _ whenTrue colon _ whenFalse =>
    ⟨.conditionalRest, false, [question, colon], [whenTrue.toNode, whenFalse.toNode]⟩
  | .tier t, tier first rest => ⟨.tier t, false, [], [first.toNode, rest.toNode]⟩
  | .tierRest t, noOperator => ⟨.tierRest t, true, [], []⟩
  | .tierRest t, operator sign _ _ operand rest =>
    ⟨.tierRest t, false, [sign], [operand.toNode, rest.toNode]⟩
  | _, cast body => ⟨.cast, false, [], [body.toNode]⟩
  | _, prefixed sign _ _ operand => ⟨.unary, false, [sign], [operand.toNode]⟩
  | _, unprefixed body => ⟨.unary, false, [], [body.toNode]⟩
  | _, suffixed first rest => ⟨.suffixed, false, [], [first.toNode, rest.toNode]⟩
  | _, noSuffix => ⟨.suffixedRest, true, [], []⟩
  | _, step sign _ _ _ rest => ⟨.suffixedRest, false, [sign], [rest.toNode]⟩
  | _, selection sign _ _ _ member _ rest =>
    ⟨.suffixedRest, false, [sign, member], [rest.toNode]⟩
  | _, index opening _ body closing _ rest =>
    ⟨.suffixedRest, false, [opening, closing], [body.toNode, rest.toNode]⟩
  | _, call opening _ list closing _ rest =>
    ⟨.suffixedRest, false, [opening, closing], [list.toNode, rest.toNode]⟩
  | _, noArguments => ⟨.argumentList, true, [], []⟩
  | _, arguments first rest => ⟨.argumentList, false, [], [first.toNode, rest.toNode]⟩
  | _, noArgument => ⟨.argumentListRest, true, [], []⟩
  | _, argument comma _ first rest =>
    ⟨.argumentListRest, false, [comma], [first.toNode, rest.toNode]⟩
  | _, atom token _ => ⟨.primary, false, [token], []⟩
  | _, group opening _ body closing _ => ⟨.primary, false, [opening, closing], [body.toNode]⟩

/-- The tokens of a derivation from left to right. -/
@[simp] def leaves : {rule : NonTerminal} → Derivation rule → List Leaf
  | _, root body stop _ => body.leaves ++ [.plain stop]
  | _, expression body => body.leaves
  | _, assignment target rest => target.leaves ++ rest.leaves
  | _, assign sign _ _ value => .plain sign :: value.leaves
  | _, conditional condition rest => condition.leaves ++ rest.leaves
  | _, choice question _ whenTrue colon _ whenFalse =>
    .plain question :: whenTrue.leaves ++ .plain colon :: whenFalse.leaves
  | _, tier first rest => first.leaves ++ rest.leaves
  | _, operator sign _ _ operand rest => .plain sign :: operand.leaves ++ rest.leaves
  | _, cast body => body.leaves
  | _, prefixed sign _ _ operand => .plain sign :: operand.leaves
  | _, unprefixed body => body.leaves
  | _, suffixed first rest => first.leaves ++ rest.leaves
  | _, step sign _ _ _ rest => .plain sign :: rest.leaves
  | _, selection sign _ _ _ member _ rest => .plain sign :: .plain member :: rest.leaves
  | _, index opening _ body closing _ rest =>
    .plain opening :: body.leaves ++ .plain closing :: rest.leaves
  | _, call opening _ list closing _ rest =>
    .plain opening :: list.leaves ++ .plain closing :: rest.leaves
  | _, arguments first rest => first.leaves ++ rest.leaves
  | _, argument comma _ first rest => .plain comma :: first.leaves ++ rest.leaves
  | _, atom token _ => [.plain token]
  | _, group opening _ body closing _ =>
    .parenthesis opening :: body.leaves ++ [.parenthesis closing]
  | _, noAssignment | _, noChoice | _, noOperator | _, noSuffix | _, noArguments
  | _, noArgument => []

/-- The tokens of a derivation. -/
def tokens {rule : NonTerminal} (derivation : Derivation rule) : List Token :=
  derivation.leaves.map Leaf.token

/-- The tokens of a derivation without the parentheses of its primary expressions. -/
def ungrouped {rule : NonTerminal} (derivation : Derivation rule) : List Token :=
  (derivation.leaves.filter (!·.groups)).map Leaf.token

theorem tokens_root (body : Derivation .expression) (stop : Token)
    (hstop : stop.kind = .endOfInput) : (root body stop hstop).tokens = body.tokens ++ [stop] := by
  simp [tokens]

@[simp] theorem tag_toNode {rule : NonTerminal} (derivation : Derivation rule) :
    derivation.toNode.tag = rule := by
  cases derivation <;> rfl

end Derivation

end CExpr
