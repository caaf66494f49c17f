import CExpr.Proofs.Grammar.Derivation
import CExpr.Proofs.Grammar.Size
import Mathlib.Data.List.Chain

/-!
# The depth of a tree

On the way down a tree, only so many rules follow one another before one that nests or reads a
counted token. A tree of a derivation is therefore no deeper than its two sizes allow, however many
tokens it has.
-/

namespace CExpr

/-- Each is among the parts of the one before it. -/
def IsWay {α : Type} (parts : α → List α) (way : List α) : Prop :=
  way.IsChain fun whole part ↦ part ∈ parts whole

namespace Node

mutual

/-- The most nodes on one way down from the node, itself included. -/
def depth : Node → Nat
  | ⟨_, true, _, _⟩ => 1
  | ⟨_, false, _, nodes⟩ => 1 + depthOfAll nodes

def depthOfAll : List Node → Nat
  | [] => 0
  | node :: nodes => max node.depth (depthOfAll nodes)

end

theorem depth_le_of_mem {node : Node} {nodes : List Node} (h : node ∈ nodes) :
    node.depth ≤ depthOfAll nodes := by
  induction nodes with
  | nil => cases h
  | cons first nodes ih =>
    rw [depthOfAll]
    rcases List.mem_cons.1 h with rfl | hmem
    · exact Nat.le_max_left _ _
    · exact Nat.le_trans (ih hmem) (Nat.le_max_right _ _)

theorem depth_child_lt {node child : Node} (h : child ∈ node.children) :
    child.depth < node.depth := by
  obtain ⟨tag, isEmpty, held, nodes⟩ := node
  cases isEmpty with
  | true => cases h
  | false =>
    have hle := depth_le_of_mem h
    rw [depth]
    exact Nat.lt_one_add_iff.2 hle

theorem length_le_depth {node : Node} {way : List Node} (h : IsWay children (node :: way)) :
    (node :: way).length ≤ node.depth := by
  induction way generalizing node with
  | nil =>
    obtain ⟨tag, isEmpty, held, nodes⟩ := node
    cases isEmpty <;> simp [depth]
  | cons child way ih =>
    obtain ⟨hchild, hway⟩ := List.isChain_cons_cons.1 h
    have hlt := depth_child_lt hchild
    have hle := ih hway
    simp only [List.length_cons] at hle ⊢
    omega

end Node

/-- The most rules that follow one another from the rule down, before one that nests or counts. -/
def NonTerminal.level : NonTerminal → Nat
  | assignment | conditional | cast | tierRest _ | suffixedRest | argumentListRest => 0
  | expression | assignmentRest | argumentList => 1
  | root | conditionalRest | primary => 2
  | suffixed => 3
  | unary => 4
  | tier t => 1 + t.level

theorem Tier.level_lt (tier : Tier) : tier.level < 10 := by
  cases tier <;> decide

theorem Tier.level_operand (tier : Tier) : tier.operand.level = tier.level := by
  cases tier <;> rfl

/-- After a rule that nests or counts come ten others at the most. -/
theorem Derivation.depth_toNode_le {rule : NonTerminal} (derivation : Derivation rule) :
    derivation.toNode.depth ≤
      11 * (derivation.toNode.nesting + derivation.toNode.operators) + rule.level + 1 := by
  induction derivation with
  | noAssignment | noChoice | noOperator | noSuffix | noArguments | noArgument | atom =>
    simp [toNode, Node.depth, Node.depthOfAll]
  | root body _ _ ih | expression body ih | cast body ih | unprefixed body ih
  | prefixed _ _ _ body ih | assign _ _ _ body ih | group _ _ body _ _ ih | step _ _ _ _ body ih
  | selection _ _ _ _ _ _ body ih =>
    simp only [toNode, Node.depth, Node.depthOfAll, Node.nesting, Node.nestingOfAll,
      Node.operators, Node.operatorsOfAll, NonTerminal.nests, NonTerminal.counts,
      NonTerminal.level, if_true, if_false, Bool.false_eq_true] at ih ⊢
    omega
  | assignment first rest ihFirst ihRest | conditional first rest ihFirst ihRest
  | choice _ _ first _ _ rest ihFirst ihRest | suffixed first rest ihFirst ihRest
  | index _ _ first _ _ rest ihFirst ihRest | call _ _ first _ _ rest ihFirst ihRest
  | arguments first rest ihFirst ihRest | argument _ _ first rest ihFirst ihRest =>
    have htier := Tier.loosest.level_lt
    simp only [toNode, Node.depth, Node.depthOfAll, Node.nesting, Node.nestingOfAll,
      Node.operators, Node.operatorsOfAll, NonTerminal.nests, NonTerminal.counts,
      NonTerminal.level, if_true, if_false, Bool.false_eq_true] at ihFirst ihRest ⊢
    omega
  | @tier t first rest ihFirst ihRest | @operator t _ _ _ first rest ihFirst ihRest =>
    have htier := t.level_lt
    rw [t.level_operand] at ihFirst
    simp only [toNode, Node.depth, Node.depthOfAll, Node.nesting, Node.nestingOfAll,
      Node.operators, Node.operatorsOfAll, NonTerminal.nests, NonTerminal.counts,
      NonTerminal.level, if_true, if_false, Bool.false_eq_true] at ihRest ⊢
    omega

end CExpr
