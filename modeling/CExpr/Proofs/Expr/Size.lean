import CExpr.Proofs.Expr.OfDerivation
import CExpr.Proofs.Expr.WellFormed
import CExpr.Proofs.Grammar.Depth
import CExpr.Proofs.Parse.Counts
import CExpr.Proofs.Parse.Trees
import Mathlib.Algebra.GroupWithZero.Nat

/-!
# The size of an expression

A parser counts the signs of binary operations and suffixes and the commas of calls over the whole
input, and the rules that nest on the way down alone. A chain of signs is folded from the left, so a
long chain of the tree is a deep expression. The depth of an expression is therefore bounded by both
limits together, and by nothing that depends on the length of the input.
-/

namespace CExpr

namespace Expr

/-! ## The nodes of an expression -/

/-- The expression and all expressions in it. -/
def nodes (expr : Expr) : List Expr := expr.layers.map Prod.snd

theorem map_snd_layersAt (expr : Expr) (depth : Nat) :
    (expr.layersAt depth).map Prod.snd = expr.nodes := by
  revert depth
  induction expr using of_children with
  | step expr ih =>
    intro depth
    rw [nodes, layers, layersAt_eq, layersAt_eq, List.map_cons, List.map_cons, List.map_flatMap,
      List.map_flatMap]
    refine congrArg (expr :: ·) ?_
    have hchild : ∀ child ∈ expr.children, (child.layersAt (depth + 1)).map Prod.snd =
        (child.layersAt 1).map Prod.snd :=
      fun child hmem ↦ (ih child hmem _).trans (ih child hmem 1).symm
    exact List.flatMap_congr hchild

theorem nodes_eq (expr : Expr) : expr.nodes = expr :: expr.children.flatMap nodes := by
  rw [nodes, layers, layersAt_eq, List.map_cons, List.map_flatMap]
  simp only [map_snd_layersAt]

/-- A way down passes through nodes of the expression, in their order. -/
theorem sublist_nodes {expr : Expr} {way : List Expr} (h : IsWay children (expr :: way)) :
    (expr :: way).Sublist expr.nodes := by
  induction way generalizing expr with
  | nil =>
    rw [nodes_eq]
    exact (List.nil_sublist _).cons_cons _
  | cons child way ih =>
    obtain ⟨hchild, hway⟩ := List.isChain_cons_cons.1 h
    have hmem : child.nodes ∈ expr.children.map nodes := List.mem_map_of_mem hchild
    rw [nodes_eq, List.flatMap_def]
    exact ((ih hway).trans (List.sublist_flatten_of_mem hmem)).cons_cons _

/-! ## What the limits count -/

def isBinary : Expr → Bool
  | binary _ _ _ _ => true
  | _ => false

def isSuffixed : Expr → Bool
  | suffixed _ _ _ _ _ => true
  | _ => false

/-- The number of commas between the arguments of a call. -/
def commas : Expr → Nat
  | suffixed .call _ _ operands _ => operands.length - 1
  | _ => 0

/-- The operations whose operands lie behind one more nesting rule than the operation itself. -/
def nests : Expr → Bool
  | unary _ _ _ | conditional _ _ _ _ | assign _ _ _ _ => true
  | _ => false

/-- The number of counted tokens of the operation itself. -/
def counted (expr : Expr) : Nat := expr.isBinary.toNat + expr.isSuffixed.toNat + expr.commas

/-- The number of counted tokens of the whole expression. -/
def operators (expr : Expr) : Nat := (expr.nodes.map counted).sum

theorem operators_eq (expr : Expr) :
    expr.operators = expr.counted + (expr.children.map operators).sum := by
  rw [operators, nodes_eq, List.map_cons, List.sum_cons, List.flatMap_def, List.map_flatten,
    List.sum_flatten, List.map_map, List.map_map]
  rfl

section

variable {location : Location}

@[simp] theorem operators_primary (token : Token) : (primary token).operators = 0 := by
  rw [operators_eq]
  rfl

@[simp] theorem operators_suffixed (op : SuffixOp) (left : Expr) (member : Option Token)
    (operands : List Expr) :
    (suffixed op left member operands location).operators =
      left.operators + (1 + (suffixed op left member operands location).commas +
        (operands.map operators).sum) := by
  simp only [operators_eq (suffixed _ _ _ _ _), counted, isBinary, isSuffixed, children,
    List.map_cons, List.sum_cons, Bool.toNat_false, Bool.toNat_true]
  omega

@[simp] theorem commas_suffixed_nil (op : SuffixOp) (left : Expr) (member : Option Token) :
    (suffixed op left member [] location).commas = 0 := by
  cases op <;> rfl

@[simp] theorem operators_unary (op : UnaryOp) (operand : Expr) :
    (unary op operand location).operators = operand.operators := by
  simp [operators_eq (unary _ _ _), counted, isBinary, isSuffixed, commas, children]

@[simp] theorem operators_binary (op : BinaryOp) (left right : Expr) :
    (binary op left right location).operators = left.operators + (1 + right.operators) := by
  simp only [operators_eq (binary _ _ _ _), counted, isBinary, isSuffixed, commas, children,
    List.map_cons, List.map_nil, List.sum_cons, List.sum_nil, Bool.toNat_false, Bool.toNat_true]
  omega

@[simp] theorem operators_conditional (condition whenTrue whenFalse : Expr) :
    (conditional condition whenTrue whenFalse location).operators =
      condition.operators + (whenTrue.operators + whenFalse.operators) := by
  simp [operators_eq (conditional _ _ _ _), counted, isBinary, isSuffixed, commas, children]

@[simp] theorem operators_assign (op : AssignOp) (target value : Expr) :
    (assign op target value location).operators = target.operators + value.operators := by
  simp [operators_eq (assign _ _ _ _), counted, isBinary, isSuffixed, commas, children]

end

theorem sum_map_counted (exprs : List Expr) :
    (exprs.map counted).sum =
      exprs.countP isBinary + exprs.countP isSuffixed + (exprs.map commas).sum := by
  induction exprs with
  | nil => rfl
  | cons expr exprs ih =>
    simp only [List.map_cons, List.sum_cons, List.countP_cons, ih, counted]
    cases expr.isBinary <;> cases expr.isSuffixed <;> simp <;> omega

mutual

/-- The most operations that nest on one way down from the expression, itself included. -/
def nesting : Expr → Nat
  | primary _ | declaration => 0
  | suffixed _ left _ operands _ => max left.nesting (nestingOfAll operands)
  | unary _ operand _ => 1 + operand.nesting
  | binary _ left right _ => max left.nesting right.nesting
  | conditional condition whenTrue whenFalse _ =>
    1 + max condition.nesting (max whenTrue.nesting whenFalse.nesting)
  | assign _ target value _ => 1 + max target.nesting value.nesting

def nestingOfAll : List Expr → Nat
  | [] => 0
  | expr :: exprs => max expr.nesting (nestingOfAll exprs)

end

theorem nesting_le_of_mem {expr : Expr} {exprs : List Expr} (h : expr ∈ exprs) :
    expr.nesting ≤ nestingOfAll exprs := by
  induction exprs with
  | nil => cases h
  | cons first exprs ih =>
    rw [nestingOfAll]
    rcases List.mem_cons.1 h with rfl | hmem
    · exact Nat.le_max_left _ _
    · exact Nat.le_trans (ih hmem) (Nat.le_max_right _ _)

theorem nestingOfAll_le_iff {exprs : List Expr} {most : Nat} :
    nestingOfAll exprs ≤ most ↔ ∀ expr ∈ exprs, expr.nesting ≤ most := by
  induction exprs with
  | nil => simp [nestingOfAll]
  | cons expr exprs ih => rw [nestingOfAll, Nat.max_le, ih, List.forall_mem_cons]

/-- A child of an operation that nests is nested less deeply. -/
theorem nesting_child_le {expr child : Expr} (h : child ∈ expr.children) :
    child.nesting + (if expr.nests then 1 else 0) ≤ expr.nesting := by
  cases expr with
  | primary | declaration => cases h
  | suffixed op left member operands location =>
    rcases List.mem_cons.1 h with rfl | hmem
    · exact Nat.le_max_left _ _
    · exact Nat.le_trans (nesting_le_of_mem hmem) (Nat.le_max_right _ _)
  | unary | binary | conditional | assign =>
    simp only [children, List.mem_cons, List.not_mem_nil, or_false] at h
    rcases h with rfl | rfl | rfl <;> simp only [nesting, nests] <;> simp <;> omega

/-! ## Ways down -/

/-- An expression with a child is one of the operations that the limits are about. -/
theorem one_le_of_mem_children {expr child : Expr} (h : child ∈ expr.children) :
    1 ≤ (if expr.nests then 1 else 0) + (if expr.isBinary then 1 else 0) +
      if expr.isSuffixed then 1 else 0 := by
  cases expr with
  | primary | declaration => cases h
  | suffixed | unary | binary | conditional | assign => simp [nests, isBinary, isSuffixed]

section Way

variable {expr : Expr} {way : List Expr} (h : IsWay children (expr :: way))
include h

theorem countP_nests_le : (expr :: way).countP nests ≤ expr.nesting := by
  induction way generalizing expr with
  | nil =>
    rw [List.countP_singleton]
    cases expr <;> simp [nests, nesting]
  | cons child way ih =>
    obtain ⟨hchild, hway⟩ := List.isChain_cons_cons.1 h
    have hle := nesting_child_le hchild
    have hrest := ih hway
    rw [List.countP_cons]
    omega

/-- All but the last node of a way are operations that the limits are about. -/
theorem length_le_countP :
    (expr :: way).length ≤ (expr :: way).countP nests + (expr :: way).countP isBinary +
      (expr :: way).countP isSuffixed + 1 := by
  induction way generalizing expr with
  | nil => simp
  | cons child way ih =>
    obtain ⟨hchild, hway⟩ := List.isChain_cons_cons.1 h
    have hone := one_le_of_mem_children hchild
    have hrest := ih hway
    simp only [List.length_cons, List.countP_cons (a := expr)] at hrest ⊢
    omega

theorem length_le_sizes : (expr :: way).length ≤ expr.nesting + expr.operators + 1 := by
  have hsublist := sublist_nodes h
  have hbinary := hsublist.countP_le (p := isBinary)
  have hsuffixed := hsublist.countP_le (p := isSuffixed)
  have hlength := length_le_countP h
  have hnests := countP_nests_le h
  have hsum := sum_map_counted expr.nodes
  rw [operators]
  omega

end Way

end Expr

/-! ## Expressions of derivations -/

namespace Derivation

open CExpr.Expr (nestingOfAll nestingOfAll_le_iff)

/-- What a derivation makes has the counted tokens of its tree, besides those of an expression on
the left. The comma before an argument is counted with it, so a list has one less. -/
def Counts : {rule : NonTerminal} → Derivation rule → Prop
  | .assignmentRest, rest | .conditionalRest, rest | .tierRest _, rest | .suffixedRest, rest =>
    ∀ left, (rest.after left).operators = left.operators + rest.toNode.operators
  | .argumentList, list =>
    (list.exprs.map Expr.operators).sum + (list.exprs.length - 1) = list.toNode.operators
  | .argumentListRest, rest =>
    (rest.exprs.map Expr.operators).sum + rest.exprs.length = rest.toNode.operators
  | _, derivation => derivation.expr.operators = derivation.toNode.operators

theorem Counts.operand {t : Tier} {operand : Derivation t.operand} (h : operand.Counts) :
    operand.expr.operators = operand.toNode.operators := by
  cases t <;> exact h

theorem counts {rule : NonTerminal} (derivation : Derivation rule) : derivation.Counts := by
  induction derivation with
  | root body _ _ ih | expression body ih | cast body ih | unprefixed body ih
  | prefixed _ _ _ body ih | group _ _ body _ _ ih =>
    simp only [Counts] at ih ⊢
    simp [expr, toNode, Node.operators, Node.operatorsOfAll, NonTerminal.counts, ih]
  | assignment first rest ihFirst ihRest | conditional first rest ihFirst ihRest
  | suffixed first rest ihFirst ihRest =>
    simp only [Counts] at ihFirst ihRest ⊢
    simp [expr, toNode, Node.operators, Node.operatorsOfAll, NonTerminal.counts, ihFirst, ihRest]
  | tier first rest ihFirst ihRest =>
    have hfirst := ihFirst.operand
    simp only [Counts] at ihRest ⊢
    simp [expr, toNode, Node.operators, Node.operatorsOfAll, NonTerminal.counts, hfirst, ihRest]
  | noAssignment | noChoice | noOperator | noSuffix =>
    intro left
    simp [after, toNode, Node.operators]
  | noArguments | noArgument => rfl
  | assign sign op hsign value ih =>
    intro left
    simp only [Counts] at ih
    simp [after, toNode, Node.operators, Node.operatorsOfAll, NonTerminal.counts, ih]
  | choice question hquestion whenTrue colon hcolon whenFalse ihTrue ihFalse =>
    intro left
    simp only [Counts] at ihTrue ihFalse
    simp [after, toNode, Node.operators, Node.operatorsOfAll, NonTerminal.counts, ihTrue, ihFalse]
  | operator sign op hsign operand rest ihOperand ihRest =>
    intro left
    have hoperand := ihOperand.operand
    simp only [Counts] at ihRest
    simp [after, toNode, Node.operators, Node.operatorsOfAll, NonTerminal.counts, hoperand, ihRest,
      Nat.add_assoc]
  | step _ _ _ _ rest ih | selection _ _ _ _ _ _ rest ih =>
    intro left
    simp only [Counts] at ih
    simp [after, toNode, Node.operators, Node.operatorsOfAll, NonTerminal.counts, ih, Nat.add_assoc]
  | index opening hopening body closing hclosing rest ihBody ihRest =>
    intro left
    simp only [Counts] at ihBody ihRest
    simp [after, Expr.commas, toNode, Node.operators, Node.operatorsOfAll, NonTerminal.counts,
      ihBody, ihRest, Nat.add_assoc]
  | call opening hopening list closing hclosing rest ihList ihRest =>
    intro left
    simp only [Counts] at ihList ihRest
    simp only [after, ihRest, Expr.operators_suffixed, Expr.commas, toNode, Node.operators,
      Node.operatorsOfAll, NonTerminal.counts, ← ihList]
    simp only [if_true]
    omega
  | arguments first rest ihFirst ihRest | argument _ _ first rest ihFirst ihRest =>
    simp only [Counts] at ihFirst ihRest ⊢
    simp [exprs, toNode, Node.operators, Node.operatorsOfAll, NonTerminal.counts, ihFirst, ← ihRest]
    omega
  | atom token htoken => exact Expr.operators_primary token

/-- What a derivation makes is nested less deeply than its tree, or no deeper where the next nesting
rule is still to come. -/
def Nests : {rule : NonTerminal} → Derivation rule → Prop
  | .assignmentRest, rest | .conditionalRest, rest =>
    ∀ left, (rest.after left).nesting ≤ max (left.nesting + 1) rest.toNode.nesting
  | .tierRest _, rest =>
    ∀ left, (rest.after left).nesting < max (left.nesting + 1) rest.toNode.nesting
  | .suffixedRest, rest =>
    ∀ left, (rest.after left).nesting ≤ max left.nesting rest.toNode.nesting
  | .argumentList, list | .argumentListRest, list =>
    ∀ expr ∈ list.exprs, expr.nesting < list.toNode.nesting
  | .unary, derivation | .suffixed, derivation | .primary, derivation =>
    derivation.expr.nesting ≤ derivation.toNode.nesting
  | _, derivation => derivation.expr.nesting < derivation.toNode.nesting

theorem Nests.operand {t : Tier} {operand : Derivation t.operand} (h : operand.Nests) :
    operand.expr.nesting < operand.toNode.nesting := by
  cases t <;> exact h

theorem nests {rule : NonTerminal} (derivation : Derivation rule) : derivation.Nests := by
  induction derivation with
  | root body _ _ ih | expression body ih | cast body ih | unprefixed body ih
  | prefixed _ _ _ body ih | group _ _ body _ _ ih =>
    simp only [Nests] at ih ⊢
    simp only [expr, Expr.nesting, toNode, Node.nesting, Node.nestingOfAll, NonTerminal.nests,
      if_true, if_false, Bool.false_eq_true]
    omega
  | assignment first rest ihFirst ihRest | conditional first rest ihFirst ihRest
  | suffixed first rest ihFirst ihRest =>
    simp only [Nests] at ihFirst ihRest ⊢
    have hrest := ihRest first.expr
    simp only [expr, toNode, Node.nesting, Node.nestingOfAll, NonTerminal.nests, if_true, if_false,
      Bool.false_eq_true]
    omega
  | tier first rest ihFirst ihRest =>
    have hfirst := ihFirst.operand
    have hrest := ihRest first.expr
    simp only [Nests, expr, toNode, Node.nesting, Node.nestingOfAll, NonTerminal.nests, if_false,
      Bool.false_eq_true]
    omega
  | noAssignment | noChoice | noOperator | noSuffix =>
    intro left
    simp only [after]
    omega
  | assign sign op hsign value ih =>
    intro left
    simp only [Nests] at ih
    simp only [after, Expr.nesting, toNode, Node.nesting, Node.nestingOfAll, NonTerminal.nests,
      if_false, Bool.false_eq_true]
    omega
  | choice question hquestion whenTrue colon hcolon whenFalse ihTrue ihFalse =>
    intro left
    simp only [Nests] at ihTrue ihFalse
    simp only [after, Expr.nesting, toNode, Node.nesting, Node.nestingOfAll, NonTerminal.nests,
      if_false, Bool.false_eq_true]
    omega
  | operator sign op hsign operand rest ihOperand ihRest =>
    intro left
    have hoperand := ihOperand.operand
    have hrest := ihRest (.binary op left operand.expr sign.location)
    simp only [after, Expr.nesting, toNode, Node.nesting, Node.nestingOfAll, NonTerminal.nests,
      if_false, Bool.false_eq_true] at hrest ⊢
    omega
  | step sign op _ _ rest ih =>
    intro left
    have hrest := ih (.suffixed op left none [] sign.location)
    simp only [after, Expr.nesting, nestingOfAll, toNode, Node.nesting, Node.nestingOfAll,
      NonTerminal.nests, if_false, Bool.false_eq_true] at hrest ⊢
    omega
  | selection sign op hsign hop member hmember rest ih =>
    intro left
    have hrest := ih (.suffixed op left (some member) [] sign.location)
    simp only [after, Expr.nesting, nestingOfAll, toNode, Node.nesting, Node.nestingOfAll,
      NonTerminal.nests, if_false, Bool.false_eq_true] at hrest ⊢
    omega
  | index opening hopening body closing hclosing rest ihBody ihRest =>
    intro left
    simp only [Nests] at ihBody
    have hrest := ihRest (.suffixed .index left none [body.expr] opening.location)
    simp only [after, Expr.nesting, nestingOfAll, toNode, Node.nesting, Node.nestingOfAll,
      NonTerminal.nests, if_false, Bool.false_eq_true] at hrest ⊢
    omega
  | call opening hopening list closing hclosing rest ihList ihRest =>
    intro left
    have hlist : nestingOfAll list.exprs ≤ list.toNode.nesting :=
      nestingOfAll_le_iff.2 fun expr hexpr ↦ (ihList expr hexpr).le
    have hrest := ihRest (.suffixed .call left none list.exprs opening.location)
    simp only [after, Expr.nesting, toNode, Node.nesting, Node.nestingOfAll, NonTerminal.nests,
      if_false, Bool.false_eq_true] at hrest ⊢
    omega
  | noArguments | noArgument => exact List.forall_mem_nil _
  | arguments first rest ihFirst ihRest | argument _ _ first rest ihFirst ihRest =>
    simp only [Nests] at ihFirst
    simp only [Nests, exprs, toNode, Node.nesting, Node.nestingOfAll, NonTerminal.nests, if_false,
      Bool.false_eq_true]
    refine List.forall_mem_cons.2 ⟨?_, fun expr hexpr ↦ ?_⟩
    · omega
    · have hlt := ihRest expr hexpr
      omega
  | atom token htoken => exact Nat.zero_le _

end Derivation

/-! ## Bounds of a parse -/

/-- A parser that ends well has counted the binary operations, the suffixes and the commas of calls
of the expression. Ways down the expression and the tree, which are all that a recursion on them
goes, are bounded by the limits alone. -/
theorem sizes_of_parse_eq_ok {tokens : List Token} {root : Node} {expr : Expr}
    (hparse : parse tokens = .ok root) (hexpr : Expr.ofTree root = .ok expr) :
    ((Parser.ofTokens tokens).parse.2.state.operators =
        expr.nodes.countP Expr.isBinary + expr.nodes.countP Expr.isSuffixed +
          (expr.nodes.map Expr.commas).sum ∧
      (Parser.ofTokens tokens).parse.2.state.operators ≤ 1024) ∧
    (∀ way, IsWay Expr.children (expr :: way) →
      (expr :: way).countP Expr.nests < 192 ∧ (expr :: way).length ≤ 191 + 1024 + 1) ∧
    ∀ way, IsWay Node.children (root :: way) →
      (root :: way).length ≤ 11 * (192 + 1024) + 3 := by
  obtain ⟨derivation, rfl, -⟩ := Parser.exists_derivation hparse
  rw [derivation.ofTree_toNode] at hexpr
  cases hexpr
  obtain ⟨hcounted, hadmit⟩ := Parser.counts_of_parseWithin hparse
  obtain ⟨hnesting, hoperators⟩ := Parse.Limits.admit_standard_iff.1 hadmit
  have hsame : derivation.expr.operators = derivation.toNode.operators := derivation.counts
  have hless : derivation.expr.nesting < derivation.toNode.nesting := derivation.nests
  refine ⟨⟨?_, ?_⟩, fun way hway ↦ ⟨?_, ?_⟩, fun way hway ↦ ?_⟩
  · rw [← Expr.sum_map_counted]
    exact hcounted.trans hsame.symm
  · exact hcounted.trans_le hoperators
  · have hnests := Expr.countP_nests_le hway
    omega
  · have hlength := Expr.length_le_sizes hway
    omega
  · have hlength := Node.length_le_depth hway
    have hdepth := derivation.depth_toNode_le
    simp only [NonTerminal.level] at hdepth
    omega

/-- Two binary operations, three suffixes and one comma. -/
example : (Derivation.sample.expr.nodes.countP Expr.isBinary,
    Derivation.sample.expr.nodes.countP Expr.isSuffixed,
    (Derivation.sample.expr.nodes.map Expr.commas).sum) = (2, 3, 1) := by decide +kernel

theorem sizes_of_parse_sample :
    (parse Derivation.sample.tokens = .ok Derivation.sample.toNode ∧
      Expr.ofTree Derivation.sample.toNode = .ok Derivation.sample.expr) ∧
    ((Parser.ofTokens Derivation.sample.tokens).parse.2.state.operators =
        Derivation.sample.expr.nodes.countP Expr.isBinary +
          Derivation.sample.expr.nodes.countP Expr.isSuffixed +
          (Derivation.sample.expr.nodes.map Expr.commas).sum ∧
      (Parser.ofTokens Derivation.sample.tokens).parse.2.state.operators ≤ 1024) ∧
    (∀ way, IsWay Expr.children (Derivation.sample.expr :: way) →
      (Derivation.sample.expr :: way).countP Expr.nests < 192 ∧
        (Derivation.sample.expr :: way).length ≤ 191 + 1024 + 1) ∧
    ∀ way, IsWay Node.children (Derivation.sample.toNode :: way) →
      (Derivation.sample.toNode :: way).length ≤ 11 * (192 + 1024) + 3 := by
  have hparse := Derivation.parse_sample
  have hexpr := Derivation.sample.ofTree_toNode
  exact ⟨⟨hparse, hexpr⟩, sizes_of_parse_eq_ok hparse hexpr⟩

end CExpr
