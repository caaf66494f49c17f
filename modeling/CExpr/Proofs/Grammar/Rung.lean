import CExpr.Proofs.Grammar.Derivation

/-!
# Rungs

The rules from operands with suffixes up to whole expressions stand above one another like the rungs
of a ladder. Each is derived from the one below it by leaving out its optional part, so a derivation
on one rung is carried up to every higher one without a change to its tokens.
-/

namespace CExpr

/-- The rule on a rung, the tightest one first. -/
def NonTerminal.rung : Nat → NonTerminal
  | 0 => suffixed
  | 1 => unary
  | 2 => cast
  | 3 => tier .multiplicative
  | 4 => tier .additive
  | 5 => tier .shift
  | 6 => tier .relational
  | 7 => tier .equality
  | 8 => tier .bitwiseAnd
  | 9 => tier .bitwiseXor
  | 10 => tier .bitwiseOr
  | 11 => tier .logicalAnd
  | 12 => tier .logicalOr
  | 13 => conditional
  | 14 => assignment
  | _ => expression

open NonTerminal (rung)

theorem Tier.rung_level (tier : Tier) : rung (3 + tier.level) = .tier tier := by
  cases tier <;> rfl

theorem Tier.rung_operand (tier : Tier) : rung (2 + tier.level) = tier.operand := by
  cases tier <;> rfl

namespace Derivation

/-- A derivation on the next rung. -/
def wrap : (height : Nat) → Derivation (rung height) → Derivation (rung (height + 1))
  | 0, body => unprefixed body
  | 1, body => cast body
  | 2, body => .tier body noOperator
  | 3, body => .tier body noOperator
  | 4, body => .tier body noOperator
  | 5, body => .tier body noOperator
  | 6, body => .tier body noOperator
  | 7, body => .tier body noOperator
  | 8, body => .tier body noOperator
  | 9, body => .tier body noOperator
  | 10, body => .tier body noOperator
  | 11, body => .tier body noOperator
  | 12, body => conditional body noChoice
  | 13, body => assignment body noAssignment
  | 14, body => expression body
  | _ + 15, body => body

@[simp] theorem leaves_wrap :
    (height : Nat) → (body : Derivation (rung height)) → (wrap height body).leaves = body.leaves
  | 0, _ | 1, _ | 14, _ | _ + 15, _ => rfl
  | 2, _ | 3, _ | 4, _ | 5, _ | 6, _ | 7, _ | 8, _ | 9, _ | 10, _ | 11, _ | 12, _ | 13, _ =>
    List.append_nil _

/-- A derivation so many rungs higher. -/
def climb {height : Nat} (body : Derivation (rung height)) :
    (count : Nat) → Derivation (rung (height + count))
  | 0 => body
  | count + 1 => wrap (height + count) (body.climb count)

@[simp] theorem leaves_climb {height : Nat} (body : Derivation (rung height)) (count : Nat) :
    (body.climb count).leaves = body.leaves := by
  induction count with
  | zero => rfl
  | succ count ih => rw [climb, leaves_wrap, ih]

end Derivation

end CExpr
