import CExpr.Proofs.Grammar.Fills

/-!
# Two sizes of a tree

The limits of a parse are about the tree that it gives: how many nesting rules lie on a way from the
root down, and how many nodes read a counted token.
-/

namespace CExpr

open Parse (Contents)

/-- Whether an application of the rule to any tokens begins with a counted one. -/
def NonTerminal.counts : NonTerminal → Bool
  | tierRest _ | suffixedRest | argumentListRest => true
  | _ => false

namespace Node

mutual

/-- The most nesting rules on one way down from the node, its own included. -/
def nesting : Node → Nat
  | ⟨tag, true, _, _⟩ => if tag.nests then 1 else 0
  | ⟨tag, false, _, nodes⟩ => (if tag.nests then 1 else 0) + nestingOfAll nodes

def nestingOfAll : List Node → Nat
  | [] => 0
  | node :: nodes => max node.nesting (nestingOfAll nodes)

end

mutual

/-- The number of non-empty nodes of counting rules, the node itself included. -/
def operators : Node → Nat
  | ⟨_, true, _, _⟩ => 0
  | ⟨tag, false, _, nodes⟩ => (if tag.counts then 1 else 0) + operatorsOfAll nodes

def operatorsOfAll : List Node → Nat
  | [] => 0
  | node :: nodes => node.operators + operatorsOfAll nodes

end

end Node

/-- The number of counted terminals of a body. -/
def Body.counted : List Symbol → Nat
  | [] => 0
  | .terminal _ role :: rest => (if role = .counted then 1 else 0) + counted rest
  | .rule _ :: rest => counted rest

theorem NonTerminal.counted_of_mem {rule : NonTerminal} {production : Production}
    (h : production ∈ rule.productions) :
    Body.counted production.body = if rule.counts ∧ production.body ≠ [] then 1 else 0 := by
  have hall : ∀ rule : NonTerminal, ∀ p ∈ rule.productions,
      Body.counted p.body = if rule.counts ∧ p.body ≠ [] then 1 else 0 := by decide
  exact hall rule production h

theorem Fills.nesting_toNode {body : List Symbol} {contents : Contents} {tokens : List Token}
    (h : Fills body contents tokens) (rule : NonTerminal) :
    (contents.toNode rule body).nesting =
      (if rule.nests then 1 else 0) + Node.nestingOfAll contents.children := by
  cases body with
  | nil =>
    obtain ⟨rfl, rfl⟩ := fills_nil_iff.1 h
    simp [Contents.toNode, Contents.empty, Node.nesting, Node.nestingOfAll]
  | cons => simp [Contents.toNode, Node.nesting]

theorem Fills.operators_toNode {rule : NonTerminal} {production : Production} {contents : Contents}
    {tokens : List Token} (hproduction : production ∈ rule.productions)
    (h : Fills production.body contents tokens) :
    (contents.toNode rule production.body).operators =
      Body.counted production.body + Node.operatorsOfAll contents.children := by
  rw [NonTerminal.counted_of_mem hproduction]
  generalize production.body = body at h ⊢
  cases body with
  | nil =>
    obtain ⟨rfl, rfl⟩ := fills_nil_iff.1 h
    simp [Contents.toNode, Contents.empty, Node.operators, Node.operatorsOfAll]
  | cons => simp [Contents.toNode, Node.operators]

/-! ## Limits -/

namespace Parse.Limits

/-- The limits allow a tree with these sizes. -/
def Admit (limits : Limits) (nesting operators : Nat) : Prop :=
  (∀ most, limits.nesting = some most → nesting ≤ most) ∧
    ∀ most, limits.operators = some most → operators ≤ most

theorem admit_unlimited (nesting operators : Nat) : unlimited.Admit nesting operators := by
  constructor <;> rintro most ⟨⟩

theorem admit_standard_iff {nesting operators : Nat} :
    standard.Admit nesting operators ↔ nesting ≤ 192 ∧ operators ≤ 1024 := by
  simp [Admit, standard]

theorem Admit.mono {limits : Limits} {nesting operators fewerNesting fewerOperators : Nat}
    (h : limits.Admit nesting operators) (hnesting : fewerNesting ≤ nesting)
    (hoperators : fewerOperators ≤ operators) : limits.Admit fewerNesting fewerOperators :=
  ⟨fun most hmost ↦ Nat.le_trans hnesting (h.1 most hmost),
    fun most hmost ↦ Nat.le_trans hoperators (h.2 most hmost)⟩

theorem Admit.admitsDepth {limits : Limits} {depth operators : Nat}
    (h : limits.Admit (depth + 1) operators) : limits.admitsDepth depth = true := by
  unfold Limits.admitsDepth
  split
  next most hmost => exact decide_eq_true (h.1 most hmost)
  · rfl

theorem Admit.admitsOperators {limits : Limits} {nesting operators : Nat}
    (h : limits.Admit nesting operators) : limits.admitsOperators operators = true := by
  unfold Limits.admitsOperators
  split
  next most hmost => exact decide_eq_true (h.2 most hmost)
  · rfl

end Parse.Limits

end CExpr
