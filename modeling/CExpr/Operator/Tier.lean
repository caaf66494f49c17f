import CExpr.Operator.Basic

/-!
# Precedence tiers

The binary operators fall into ten tiers. Operators of one tier associate to the left, and the
operands of a tier are expressions of the next tighter one, or operands of prefix operators at the
tightest.
-/

namespace CExpr

/-- The tiers of binary operators, the tightest first. -/
inductive Tier
  | multiplicative | additive | shift | relational | equality
  | bitwiseAnd | bitwiseXor | bitwiseOr | logicalAnd | logicalOr
  deriving DecidableEq, Repr

namespace Tier

/-- The tiers from the tightest to the loosest. -/
def all : List Tier :=
  [multiplicative, additive, shift, relational, equality, bitwiseAnd, bitwiseXor, bitwiseOr,
    logicalAnd, logicalOr]

/-- The tier that takes every binary operator, whatever its precedence. -/
def loosest : Tier := logicalOr

def name : Tier → String
  | multiplicative => "multiplicative"
  | additive => "additive"
  | shift => "shift"
  | relational => "relational"
  | equality => "equality"
  | bitwiseAnd => "bitwise_and"
  | bitwiseXor => "bitwise_xor"
  | bitwiseOr => "bitwise_or"
  | logicalAnd => "logical_and"
  | logicalOr => "logical_or"

/-- The number of tiers that bind tighter. -/
def level (tier : Tier) : Nat := all.idxOf tier

/-- The tier of the operands. The tightest tier has none. -/
def tighter? : Tier → Option Tier
  | multiplicative => none
  | additive => some multiplicative
  | shift => some additive
  | relational => some shift
  | equality => some relational
  | bitwiseAnd => some equality
  | bitwiseXor => some bitwiseAnd
  | bitwiseOr => some bitwiseXor
  | logicalAnd => some bitwiseOr
  | logicalOr => some logicalAnd

/-- The kinds of tokens read as operators of the tier. -/
def table : Tier → List (Kind × BinaryOp)
  | multiplicative => [(.punct '*', .times), (.punct '/', .divide), (.punct '%', .remainder)]
  | additive => [(.punct '+', .plus), (.punct '-', .minus)]
  | shift => [(.compound .shiftLeft, .shiftLeft), (.compound .shiftRight, .shiftRight)]
  | relational =>
    [(.punct '<', .less), (.punct '>', .greater), (.compound .lessEqual, .lessEqual),
      (.compound .greaterEqual, .greaterEqual)]
  | equality => [(.compound .equal, .equal), (.compound .notEqual, .notEqual)]
  | bitwiseAnd => [(.punct '&', .bitwiseAnd)]
  | bitwiseXor => [(.punct '^', .bitwiseXor)]
  | bitwiseOr => [(.punct '|', .bitwiseOr)]
  | logicalAnd => [(.compound .logicalAnd, .logicalAnd)]
  | logicalOr => [(.compound .logicalOr, .logicalOr)]

/-- The operator of the tier that a token of the kind stands for. -/
def operator? (tier : Tier) (kind : Kind) : Option BinaryOp := tier.table.lookup kind

end Tier

/-- The tier that an operator belongs to. -/
def BinaryOp.tier : BinaryOp → Tier
  | times | divide | remainder => .multiplicative
  | plus | minus => .additive
  | shiftLeft | shiftRight => .shift
  | less | greater | lessEqual | greaterEqual => .relational
  | equal | notEqual => .equality
  | bitwiseAnd => .bitwiseAnd
  | bitwiseXor => .bitwiseXor
  | bitwiseOr => .bitwiseOr
  | logicalAnd => .logicalAnd
  | logicalOr => .logicalOr

/-- An operator is in the table of its own tier alone. -/
theorem Tier.mem_table_iff {tier : Tier} {op : BinaryOp} :
    op ∈ tier.table.map Prod.snd ↔ op.tier = tier := by
  cases tier <;> cases op <;> decide

end CExpr
