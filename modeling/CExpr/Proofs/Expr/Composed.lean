import CExpr.Proofs.Expr.Unique
import CExpr.Proofs.Parse.Limits

/-!
# Expressions put together

Tokens that parse on their own are operands. Put in parentheses they parse to the same expression
wherever an operand may stand, so any operation on operands in parentheses parses to that operation
on their expressions, at the place of its sign. Only the limits can stand in the way.
-/

namespace CExpr

open NonTerminal (rung)
open Parse (Input)

/-! ## Compositions -/

/-- Tokens without an end of the input that parse to the expression on their own. -/
structure IsOperand (words : List Token) (expr : Expr) : Prop where
  kind_ne : ∀ token ∈ words, token.kind ≠ .endOfInput
  parses : ∃ root, parse words = .ok root ∧ Expr.ofTree root = .ok expr

/-- An operand in parentheses. -/
inductive IsGroup : List Token → Expr → Prop
  | intro {words : List Token} {expr : Expr} (opening closing : Token)
      (hopening : opening.kind = .punct '(') (hclosing : closing.kind = .punct ')')
      (h : IsOperand words expr) : IsGroup (opening :: (words ++ [closing])) expr

/-- Further arguments, each of them an operand after a comma. -/
inductive AreFurther : List Token → List Expr → Prop
  | nil : AreFurther [] []
  | cons {words rest : List Token} {expr : Expr} {exprs : List Expr} (comma : Token)
      (hcomma : comma.kind = .punct ',') (h : IsOperand words expr)
      (hrest : AreFurther rest exprs) :
      AreFurther (comma :: (words ++ rest)) (expr :: exprs)

/-- Arguments, which are operands with commas between them. -/
inductive AreArguments : List Token → List Expr → Prop
  | nil : AreArguments [] []
  | cons {words rest : List Token} {expr : Expr} {exprs : List Expr} (h : IsOperand words expr)
      (hrest : AreFurther rest exprs) : AreArguments (words ++ rest) (expr :: exprs)

/-- One operation on operands in parentheses. An operand needs none at the end of an assignment and
between two signs that enclose it. -/
inductive Composition : List Token → Expr → Prop
  | group {words : List Token} {expr : Expr} (h : IsGroup words expr) : Composition words expr
  | binary {tier : Tier} {front back : List Token} {left right : Expr} (sign : Token)
      (op : BinaryOp) (hsign : tier.operator? sign.kind = some op) (hleft : IsGroup front left)
      (hright : IsGroup back right) :
      Composition (front ++ sign :: back) (.binary op left right sign.location)
  | unary {words : List Token} {operand : Expr} (sign : Token) (op : UnaryOp)
      (hsign : UnaryOp.ofKind? sign.kind = some op) (hoperand : IsGroup words operand) :
      Composition (sign :: words) (.unary op operand sign.location)
  | conditional {first second third : List Token} {condition whenTrue whenFalse : Expr}
      (question colon : Token) (hquestion : question.kind = .punct '?')
      (hcolon : colon.kind = .punct ':') (hcondition : IsGroup first condition)
      (htrue : IsOperand second whenTrue) (hfalse : IsGroup third whenFalse) :
      Composition (first ++ question :: (second ++ colon :: third))
        (.conditional condition whenTrue whenFalse question.location)
  | assign {front back : List Token} {target value : Expr} (sign : Token) (op : AssignOp)
      (hsign : AssignOp.ofKind? sign.kind = some op) (htarget : IsGroup front target)
      (hvalue : IsOperand back value) :
      Composition (front ++ sign :: back) (.assign op target value sign.location)
  | step {front : List Token} {left : Expr} (sign : Token) (op : SuffixOp)
      (hsign : SuffixOp.ofKind? sign.kind = some op) (hop : op.isStep = true)
      (hleft : IsGroup front left) :
      Composition (front ++ [sign]) (.suffixed op left none [] sign.location)
  | selection {front : List Token} {left : Expr} (sign : Token) (op : SuffixOp)
      (hsign : SuffixOp.ofKind? sign.kind = some op) (hop : op.isSelection = true)
      (member : Token) (hmember : member.kind = .identifier) (hleft : IsGroup front left) :
      Composition (front ++ [sign, member]) (.suffixed op left (some member) [] sign.location)
  | index {front back : List Token} {left operand : Expr} (opening closing : Token)
      (hopening : opening.kind = .punct '[') (hclosing : closing.kind = .punct ']')
      (hleft : IsGroup front left) (hoperand : IsOperand back operand) :
      Composition (front ++ opening :: (back ++ [closing]))
        (.suffixed .index left none [operand] opening.location)
  | call {front back : List Token} {left : Expr} {operands : List Expr} (opening closing : Token)
      (hopening : opening.kind = .punct '(') (hclosing : closing.kind = .punct ')')
      (hleft : IsGroup front left) (hoperands : AreArguments back operands) :
      Composition (front ++ opening :: (back ++ [closing]))
        (.suffixed .call left none operands opening.location)

/-! ## Derivations of compositions -/

/-- The rule derives the words with the expression. -/
def NonTerminal.Yields (rule : NonTerminal) (words : List Token) (expr : Expr) : Prop :=
  ∃ derivation : Derivation rule, derivation.tokens = words ∧ derivation.expr = expr

theorem NonTerminal.Yields.climb {height higher : Nat} {words : List Token} {expr : Expr}
    (h : (rung height).Yields words expr) (hle : height ≤ higher) :
    (rung higher).Yields words expr := by
  obtain ⟨derivation, rfl, rfl⟩ := h
  exact derivation.exists_climb hle

section

variable {words : List Token} {expr : Expr}

theorem IsOperand.yields (h : IsOperand words expr) : NonTerminal.expression.Yields words expr := by
  obtain ⟨hkind, root, hparse, hexpr⟩ := h
  obtain ⟨body, stop, hstop, rfl, hwords⟩ := exists_body_of_parse hparse
  refine ⟨body, hwords.trans (Input.takeWhile_isWord_of_words hkind), ?_⟩
  rw [Derivation.ofTree_toNode] at hexpr
  exact Except.ok.inj hexpr

theorem IsOperand.yields_assignment (h : IsOperand words expr) :
    NonTerminal.assignment.Yields words expr := by
  obtain ⟨derivation, rfl, rfl⟩ := h.yields
  cases derivation with
  | expression body => exact ⟨body, rfl, rfl⟩

/-- The parentheses make an operand that every rule from the tightest one up derives. -/
theorem IsGroup.yields (h : IsGroup words expr) (height : Nat) :
    (rung height).Yields words expr := by
  cases h with
  | intro opening closing hopening hclosing hoperand =>
    obtain ⟨body, rfl, rfl⟩ := hoperand.yields
    have hgroup : (rung 0).Yields (opening :: (body.tokens ++ [closing])) body.expr :=
      ⟨.suffixed (.group opening hopening body closing hclosing) .noSuffix,
        by simp [Derivation.tokens], rfl⟩
    exact hgroup.climb (Nat.zero_le height)

/-- Suffixes go on from an operand in parentheses. -/
theorem IsGroup.yields_suffix (h : IsGroup words expr) (rest : Derivation .suffixedRest) :
    NonTerminal.expression.Yields (words ++ rest.tokens) (rest.after expr) := by
  cases h with
  | intro opening closing hopening hclosing hoperand =>
    obtain ⟨body, rfl, rfl⟩ := hoperand.yields
    have hwhole : (rung 0).Yields (opening :: (body.tokens ++ [closing]) ++ rest.tokens)
        (rest.after body.expr) :=
      ⟨.suffixed (.group opening hopening body closing hclosing) rest,
        by simp [Derivation.tokens], rfl⟩
    exact hwhole.climb (Nat.zero_le 15)

theorem AreFurther.exists_list {exprs : List Expr} (h : AreFurther words exprs) :
    ∃ list : Derivation .argumentListRest, list.tokens = words ∧ list.exprs = exprs := by
  induction h with
  | nil => exact ⟨.noArgument, rfl, rfl⟩
  | cons comma hcomma hoperand _ ih =>
    obtain ⟨first, rfl, rfl⟩ := hoperand.yields_assignment
    obtain ⟨rest, rfl, rfl⟩ := ih
    exact ⟨.argument comma hcomma first rest, by simp [Derivation.tokens], rfl⟩

theorem AreArguments.exists_list {exprs : List Expr} (h : AreArguments words exprs) :
    ∃ list : Derivation .argumentList, list.tokens = words ∧ list.exprs = exprs := by
  cases h with
  | nil => exact ⟨.noArguments, rfl, rfl⟩
  | cons hoperand hrest =>
    obtain ⟨first, rfl, rfl⟩ := hoperand.yields_assignment
    obtain ⟨rest, rfl, rfl⟩ := hrest.exists_list
    exact ⟨.arguments first rest, by simp [Derivation.tokens], rfl⟩

/-- A composition is derived as a whole. -/
theorem Composition.yields (h : Composition words expr) :
    NonTerminal.expression.Yields words expr := by
  cases h with
  | group h => exact h.yields 15
  | @binary tier front back left right sign op hsign hleft hright =>
    have hfirst := hleft.yields (2 + tier.level)
    have hsecond := hright.yields (2 + tier.level)
    rw [Tier.rung_operand] at hfirst hsecond
    obtain ⟨first, rfl, rfl⟩ := hfirst
    obtain ⟨second, rfl, rfl⟩ := hsecond
    have hwhole : (rung (3 + tier.level)).Yields (first.tokens ++ sign :: second.tokens)
        (.binary op first.expr second.expr sign.location) := by
      rw [Tier.rung_level]
      exact ⟨.tier first (.operator sign op hsign second .noOperator),
        by simp [Derivation.tokens], rfl⟩
    have hlevel : 3 + tier.level ≤ 15 := by cases tier <;> decide
    exact hwhole.climb hlevel
  | unary sign op hsign hoperand =>
    have hcast : NonTerminal.cast.Yields _ _ := hoperand.yields 2
    obtain ⟨operand, rfl, rfl⟩ := hcast
    have hwhole : (rung 1).Yields (sign :: operand.tokens) (.unary op operand.expr sign.location) :=
      ⟨.prefixed sign op hsign operand, by simp [Derivation.tokens], rfl⟩
    exact hwhole.climb (show 1 ≤ 15 by decide)
  | conditional question colon hquestion hcolon hcondition htrue hfalse =>
    have hfirst : (NonTerminal.tier .loosest).Yields _ _ := hcondition.yields 12
    have hthird : NonTerminal.conditional.Yields _ _ := hfalse.yields 13
    obtain ⟨condition, rfl, rfl⟩ := hfirst
    obtain ⟨whenTrue, rfl, rfl⟩ := htrue.yields
    obtain ⟨whenFalse, rfl, rfl⟩ := hthird
    have hwhole : (rung 13).Yields
        (condition.tokens ++ question :: (whenTrue.tokens ++ colon :: whenFalse.tokens))
        (.conditional condition.expr whenTrue.expr whenFalse.expr question.location) :=
      ⟨.conditional condition (.choice question hquestion whenTrue colon hcolon whenFalse),
        by simp [Derivation.tokens], rfl⟩
    exact hwhole.climb (show 13 ≤ 15 by decide)
  | assign sign op hsign htarget hvalue =>
    have hfirst : NonTerminal.conditional.Yields _ _ := htarget.yields 13
    obtain ⟨target, rfl, rfl⟩ := hfirst
    obtain ⟨value, rfl, rfl⟩ := hvalue.yields_assignment
    have hwhole : (rung 14).Yields (target.tokens ++ sign :: value.tokens)
        (.assign op target.expr value.expr sign.location) :=
      ⟨.assignment target (.assign sign op hsign value), by simp [Derivation.tokens], rfl⟩
    exact hwhole.climb (show 14 ≤ 15 by decide)
  | step sign op hsign hop hleft =>
    exact hleft.yields_suffix (.step sign op hsign hop .noSuffix)
  | selection sign op hsign hop member hmember hleft =>
    exact hleft.yields_suffix (.selection sign op hsign hop member hmember .noSuffix)
  | index opening closing hopening hclosing hleft hoperand =>
    obtain ⟨body, rfl, rfl⟩ := hoperand.yields
    have hwhole := hleft.yields_suffix (.index opening hopening body closing hclosing .noSuffix)
    simpa [Derivation.tokens, Derivation.after] using hwhole
  | call opening closing hopening hclosing hleft hoperands =>
    obtain ⟨list, rfl, rfl⟩ := hoperands.exists_list
    have hwhole := hleft.yields_suffix (.call opening hopening list closing hclosing .noSuffix)
    simpa [Derivation.tokens, Derivation.after] using hwhole

end

/-! ## Whole inputs -/

namespace Derivation

variable (body : Derivation .expression)

theorem kind_ne_of_mem_tokens : ∀ token ∈ body.tokens, token.kind ≠ .endOfInput :=
  body.derives.kind_ne_endOfInput (by decide)

/-- The derivation of a whole input, with the end that its tokens get. -/
def whole : Derivation .root :=
  root body (Input.suppliedStop body.tokens)
    (show (Input.suppliedStop body.tokens).kind = .endOfInput from rfl)

theorem tokens_whole : body.whole.tokens = Input.completed body.tokens := by
  rw [whole, tokens_root, Input.completed_of_words body.kind_ne_of_mem_tokens]

theorem parse_whole : parse body.whole.tokens = parse body.tokens := by
  rw [tokens_whole, parse, Parser.ofTokens,
    Input.ofTokens_completed_of_words body.kind_ne_of_mem_tokens]
  rfl

/-- What is derived within the limits parses to its expression. -/
theorem parse_body (h : body.whole.toNode.nesting ≤ 192 ∧ body.whole.toNode.operators ≤ 1024) :
    ∃ root, parse body.tokens = .ok root ∧ Expr.ofTree root = .ok body.expr := by
  refine ⟨body.whole.toNode, ?_, body.whole.ofTree_toNode⟩
  rw [← body.parse_whole]
  exact body.whole.parseWithin_tokens (Parse.Limits.admit_standard_iff.2 h)

/-- What is derived within the limits is an operand. -/
theorem isOperand (h : body.whole.toNode.nesting ≤ 192 ∧ body.whole.toNode.operators ≤ 1024) :
    IsOperand body.tokens body.expr :=
  ⟨body.kind_ne_of_mem_tokens, body.parse_body h⟩

/-- A name as a whole expression. -/
def alone (text : String) (position : Nat) : Derivation .expression :=
  (ofName text position).climb 15

/-- `(a)+(b)`. -/
def groupedSum : List Token :=
  [signAt (.punct '(') 0, nameAt "a" 1, signAt (.punct ')') 2, signAt (.punct '+') 3,
    signAt (.punct '(') 4, nameAt "b" 5, signAt (.punct ')') 6]

def groupedSumExpr : Expr :=
  .binary .plus (.primary (nameAt "a" 1)) (.primary (nameAt "b" 5)) ⟨0, 3⟩

theorem composition_groupedSum : Composition groupedSum groupedSumExpr := by
  have hleft : IsOperand [nameAt "a" 1] (.primary (nameAt "a" 1)) :=
    (alone "a" 1).isOperand (by decide +kernel)
  have hright : IsOperand [nameAt "b" 5] (.primary (nameAt "b" 5)) :=
    (alone "b" 5).isOperand (by decide +kernel)
  exact .binary (signAt (.punct '+') 3) .plus (show Tier.additive.operator? _ = _ from rfl)
    (.intro (signAt (.punct '(') 0) (signAt (.punct ')') 2) rfl rfl hleft)
    (.intro (signAt (.punct '(') 4) (signAt (.punct ')') 6) rfl rfl hright)

end Derivation

/-- A composition parses to its expression, unless it is refused for a limit that it breaks. -/
theorem parse_of_composition {words : List Token} {expr : Expr} (h : Composition words expr) :
    (∃ root, parse words = .ok root ∧ Expr.ofTree root = .ok expr) ∨
      ∃ error, parse words = .error error ∧ error.isLimit ∧
        ∃ derivation : Derivation .root, derivation.tokens = Input.completed words ∧
          (192 < derivation.toNode.nesting ∨ 1024 < derivation.toNode.operators) := by
  obtain ⟨body, rfl, rfl⟩ := h.yields
  by_cases hbreaks :
    192 < body.whole.toNode.nesting ∨ 1024 < body.whole.toNode.operators
  · obtain ⟨error, herror, hlimit⟩ := body.whole.exists_limit_error hbreaks
    rw [body.parse_whole] at herror
    exact .inr ⟨error, herror, hlimit, body.whole, body.tokens_whole, hbreaks⟩
  · exact .inl (body.parse_body (by omega))

theorem parse_groupedSum :
    Composition Derivation.groupedSum Derivation.groupedSumExpr ∧
      ((∃ root, parse Derivation.groupedSum = .ok root ∧
          Expr.ofTree root = .ok Derivation.groupedSumExpr) ∨
        ∃ error, parse Derivation.groupedSum = .error error ∧ error.isLimit ∧
          ∃ derivation : Derivation .root,
            derivation.tokens = Input.completed Derivation.groupedSum ∧
              (192 < derivation.toNode.nesting ∨ 1024 < derivation.toNode.operators)) :=
  ⟨Derivation.composition_groupedSum, parse_of_composition Derivation.composition_groupedSum⟩

end CExpr
