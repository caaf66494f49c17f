import CExpr.Operator.Tier

/-!
# Rules of the grammar

One name for every rule of the grammar of expressions. A rule whose name ends in `Rest` continues a
list or stands for an optional part, so it may produce nothing.
-/

namespace CExpr

inductive NonTerminal
  | root
  | expression
  | assignment
  | assignmentRest
  | conditional
  | conditionalRest
  | tier (tier : Tier)
  | tierRest (tier : Tier)
  | cast
  | unary
  | suffixed
  | suffixedRest
  | argumentList
  | argumentListRest
  | primary
  deriving DecidableEq, Repr

namespace NonTerminal

def name : NonTerminal → String
  | root => "root"
  | expression => "expression"
  | assignment => "assignment"
  | assignmentRest => "assignment_rest"
  | conditional => "conditional"
  | conditionalRest => "conditional_rest"
  | tier t => t.name
  | tierRest t => t.name ++ "_rest"
  | cast => "cast"
  | unary => "unary"
  | suffixed => "postfix"
  | suffixedRest => "postfix_rest"
  | argumentList => "argument_list"
  | argumentListRest => "argument_list_rest"
  | primary => "primary"

def all : List NonTerminal :=
  [root, expression, assignment, assignmentRest, conditional, conditionalRest] ++
    Tier.all.flatMap (fun t ↦ [tier t, tierRest t]) ++
    [cast, unary, suffixed, suffixedRest, argumentList, argumentListRest, primary]

def ofName? (name : String) : Option NonTerminal := all.find? fun rule ↦ rule.name = name

/-- The tier whose operands and operators the rule puts together. -/
def tier? : NonTerminal → Option Tier
  | tier t => some t
  | _ => none

/-- Whether an application of the rule counts as a level of nesting. Every cycle of the grammar
passes through such a rule. -/
def nests : NonTerminal → Bool
  | assignment | conditional | cast => true
  | _ => false

theorem mem_all (rule : NonTerminal) : rule ∈ all := by
  cases rule
  case tier t => cases t <;> decide
  case tierRest t => cases t <;> decide
  all_goals decide

/-- What is decided for each rule is decided for all of them. -/
instance {p : NonTerminal → Prop} [DecidablePred p] : Decidable (∀ rule, p rule) :=
  decidable_of_iff (∀ rule ∈ all, p rule)
    ⟨fun h rule ↦ h rule (mem_all rule), fun h rule _ ↦ h rule⟩

/-- Every rule is found again by its name. -/
theorem ofName?_name (rule : NonTerminal) : ofName? rule.name = some rule := by
  have hall : ∀ rule : NonTerminal, ofName? rule.name = some rule := by decide
  exact hall rule

end NonTerminal

/-- The rule for the operands of a tier. -/
def Tier.operand (tier : Tier) : NonTerminal :=
  match tier.tighter? with
  | some inner => .tier inner
  | none => .cast

end CExpr
