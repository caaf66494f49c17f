import CExpr.Proofs.Grammar.Productions
import CExpr.Proofs.Grammar.Rung

/-!
# Every rule produces something

No rule of the grammar is a dead end: each one has a derivation, so every body can be filled. What a
parse has begun can therefore always be brought to an end.
-/

namespace CExpr

open Parse (Contents)

namespace Derivation

theorem nonempty_primary : Nonempty (Derivation .primary) :=
  ⟨atom ⟨.identifier, .start, "x"⟩ List.mem_cons_self⟩

/-- An operand is carried up to every rung. -/
theorem nonempty_rung (height : Nat) : Nonempty (Derivation (NonTerminal.rung height)) := by
  obtain ⟨operand⟩ := nonempty_primary
  have lowest : Derivation (NonTerminal.rung 0) := suffixed operand noSuffix
  rw [← Nat.zero_add height]
  exact ⟨lowest.climb height⟩

theorem nonempty (rule : NonTerminal) : Nonempty (Derivation rule) := by
  cases rule with
  | root =>
    obtain ⟨body⟩ := nonempty_rung 15
    exact ⟨root body ⟨.endOfInput, .start, ""⟩ rfl⟩
  | expression => exact nonempty_rung 15
  | assignment => exact nonempty_rung 14
  | assignmentRest => exact ⟨noAssignment⟩
  | conditional => exact nonempty_rung 13
  | conditionalRest => exact ⟨noChoice⟩
  | tier t =>
    rw [← t.rung_level]
    exact nonempty_rung (3 + t.level)
  | tierRest => exact ⟨noOperator⟩
  | cast => exact nonempty_rung 2
  | unary => exact nonempty_rung 1
  | suffixed => exact nonempty_rung 0
  | suffixedRest => exact ⟨noSuffix⟩
  | argumentList => exact ⟨noArguments⟩
  | argumentListRest => exact ⟨noArgument⟩
  | primary => exact nonempty_primary

end Derivation

/-- Every body can be filled. -/
theorem Body.exists_fills (body : List Symbol) : ∃ contents tokens, Fills body contents tokens := by
  induction body with
  | nil => exact ⟨.empty, [], .nil⟩
  | cons symbol rest ih =>
    obtain ⟨contents, tokens, hrest⟩ := ih
    cases symbol with
    | terminal kind role => exact ⟨_, _, .terminal ⟨kind, .start, ""⟩ rfl hrest⟩
    | rule name =>
      obtain ⟨derivation⟩ := Derivation.nonempty name
      exact ⟨_, _, derivation.derives.fills hrest⟩

end CExpr
