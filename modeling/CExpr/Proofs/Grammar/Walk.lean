import CExpr.Proofs.Grammar.Derivation
import CExpr.Proofs.Grammar.Size

/-!
# Walks

A walk goes through a derivation in the order in which a parse builds it. It tells where a nesting
node begins, with the number of that node on the way down to it, and which tokens follow, with a
mark on those that count. The limits of a parse are limits on the steps of its walk.
-/

namespace CExpr

open Parse (Contents)

inductive Step
  /-- A nesting node begins, the one of this number on the way down to it. -/
  | opening (number : Nat)
  /-- A token. Those of binary operators, suffixes and argument commas are counted. -/
  | token (token : Token) (counted : Bool)
  deriving DecidableEq

namespace Step

@[simp] def plain (word : Token) : Step := token word false

@[simp] def count (word : Token) : Step := token word true

@[simp] def token? : Step → Option Token
  | opening _ => none
  | token word _ => some word

@[simp] def isCounted : Step → Bool
  | opening _ => false
  | token _ counted => counted

end Step

/-- The tokens of a walk. -/
def walkedTokens (steps : List Step) : List Token := steps.filterMap Step.token?

@[simp] theorem walkedTokens_nil : walkedTokens [] = [] := rfl

@[simp] theorem walkedTokens_append (front back : List Step) :
    walkedTokens (front ++ back) = walkedTokens front ++ walkedTokens back := by
  simp [walkedTokens]

@[simp] theorem walkedTokens_opening (number : Nat) (steps : List Step) :
    walkedTokens (.opening number :: steps) = walkedTokens steps := rfl

@[simp] theorem walkedTokens_token (word : Token) (counted : Bool) (steps : List Step) :
    walkedTokens (.token word counted :: steps) = word :: walkedTokens steps := rfl

@[simp] theorem countP_isCounted_token (word : Token) (steps : List Step) :
    (Step.token word true :: steps).countP Step.isCounted = steps.countP Step.isCounted + 1 :=
  List.countP_cons_of_pos rfl

namespace Derivation

/-- The walk through a derivation inside so many nesting nodes. -/
def steps : {rule : NonTerminal} → Derivation rule → Nat → List Step
  | _, root body stop _, above => body.steps above ++ [.plain stop]
  | _, expression body, above => body.steps above
  | _, assignment target rest, above =>
    .opening (above + 1) :: (target.steps (above + 1) ++ rest.steps (above + 1))
  | _, assign sign _ _ value, above => .plain sign :: value.steps above
  | _, conditional condition rest, above =>
    .opening (above + 1) :: (condition.steps (above + 1) ++ rest.steps (above + 1))
  | _, choice question _ whenTrue colon _ whenFalse, above =>
    .plain question :: (whenTrue.steps above ++ .plain colon :: whenFalse.steps above)
  | _, tier first rest, above => first.steps above ++ rest.steps above
  | _, operator sign _ _ operand rest, above =>
    .count sign :: (operand.steps above ++ rest.steps above)
  | _, cast body, above => .opening (above + 1) :: body.steps (above + 1)
  | _, prefixed sign _ _ operand, above => .plain sign :: operand.steps above
  | _, unprefixed body, above => body.steps above
  | _, suffixed first rest, above => first.steps above ++ rest.steps above
  | _, step sign _ _ _ rest, above => .count sign :: rest.steps above
  | _, selection sign _ _ _ member _ rest, above =>
    .count sign :: .plain member :: rest.steps above
  | _, index opening _ body closing _ rest, above =>
    .count opening :: (body.steps above ++ .plain closing :: rest.steps above)
  | _, call opening _ list closing _ rest, above =>
    .count opening :: (list.steps above ++ .plain closing :: rest.steps above)
  | _, arguments first rest, above => first.steps above ++ rest.steps above
  | _, argument comma _ first rest, above =>
    .count comma :: (first.steps above ++ rest.steps above)
  | _, atom token _, _ => [.plain token]
  | _, group opening _ body closing _, above =>
    .plain opening :: (body.steps above ++ [.plain closing])
  | _, noAssignment, _ | _, noChoice, _ | _, noOperator, _ | _, noSuffix, _ | _, noArguments, _
  | _, noArgument, _ => []

/-- A walk passes the tokens of the derivation in their order. -/
theorem walkedTokens_steps {rule : NonTerminal} (derivation : Derivation rule) (above : Nat) :
    walkedTokens (derivation.steps above) = derivation.tokens := by
  have hleaves : walkedTokens (derivation.steps above) = derivation.leaves.map Leaf.token := by
    induction derivation generalizing above <;> simp_all [steps]
  exact hleaves

end Derivation

/-! ## Walks through bodies -/

/-- The contents of a body inside so many nesting nodes, and the walk through them. -/
inductive Walks : Nat → List Symbol → Contents → List Step → Prop
  | nil {above : Nat} : Walks above [] .empty []
  | terminal {above : Nat} {kind : Kind} {role : Role} {rest : List Symbol} {contents : Contents}
      {steps : List Step} (token : Token) (hkind : token.kind = kind)
      (hrest : Walks above rest contents steps) :
      Walks above (.terminal kind role :: rest) (contents.withTerminal token)
        (.token token (role = .counted) :: steps)
  | rule {above : Nat} {name : NonTerminal} {production : Production} {rest : List Symbol}
      {inner contents : Contents} {front back : List Step}
      (hproduction : production ∈ name.productions)
      (hinner : Walks (above + if name.nests then 1 else 0) production.body inner front)
      (hrest : Walks above rest contents back) :
      Walks above (.rule name :: rest) (contents.withChild (inner.toNode name production.body))
        ((if name.nests then [.opening (above + 1)] else []) ++ front ++ back)

/-- The node applies a production of the rule, and this is the walk through it. -/
def Walked (above : Nat) (rule : NonTerminal) (node : Node) (steps : List Step) : Prop :=
  ∃ production ∈ rule.productions, ∃ contents inner,
    Walks (above + if rule.nests then 1 else 0) production.body contents inner ∧
      node = contents.toNode rule production.body ∧
      steps = (if rule.nests then [.opening (above + 1)] else []) ++ inner

theorem Walked.walks {above : Nat} {rule : NonTerminal} {node : Node} {rest : List Symbol}
    {contents : Contents} {front back : List Step} (hnode : Walked above rule node front)
    (hrest : Walks above rest contents back) :
    Walks above (.rule rule :: rest) (contents.withChild node) (front ++ back) := by
  obtain ⟨production, hproduction, inner, steps, hinner, rfl, rfl⟩ := hnode
  exact .rule hproduction hinner hrest

/-- What is walked through is filled with the tokens of the walk. -/
theorem Walks.fills {above : Nat} {body : List Symbol} {contents : Contents} {steps : List Step}
    (h : Walks above body contents steps) : Fills body contents (walkedTokens steps) := by
  induction h with
  | nil => exact .nil
  | terminal token hkind _ ih => exact .terminal token hkind ih
  | @rule above name production rest inner contents front back hproduction _ _ ihInner ihRest =>
    have htokens : walkedTokens
          ((if name.nests then [Step.opening (above + 1)] else []) ++ front ++ back) =
        walkedTokens front ++ walkedTokens back := by
      split <;> simp
    rw [htokens]
    exact .rule hproduction ihInner ihRest

section Sizes

variable {above : Nat} {body : List Symbol} {contents : Contents} {steps : List Step}

/-- The counted tokens of a walk are those that the size of the tree counts. -/
theorem Walks.countP_steps (h : Walks above body contents steps) :
    steps.countP Step.isCounted = Body.counted body + Node.operatorsOfAll contents.children := by
  induction h with
  | nil => rfl
  | @terminal above kind role rest contents steps token hkind hrest ih =>
    rw [Body.counted, List.countP_cons, ih]
    change _ = _ + Node.operatorsOfAll contents.children
    simp only [Step.isCounted, decide_eq_true_eq]
    omega
  | @rule above name production rest inner contents front back hproduction hinner _ ihInner
      ihRest =>
    have hsize : Node.operatorsOfAll
          (contents.withChild (inner.toNode name production.body)).children =
        (Body.counted production.body + Node.operatorsOfAll inner.children) +
          Node.operatorsOfAll contents.children := by
      rw [← hinner.fills.operators_toNode hproduction]
      rfl
    have hopening : (if name.nests then [Step.opening (above + 1)] else []).countP
        Step.isCounted = 0 := by
      split <;> simp
    rw [List.countP_append, List.countP_append, hopening, ihInner, ihRest, Body.counted, hsize]
    omega

/-- A tree is nested no deeper than the nodes that begin on its walk. -/
theorem Walks.nesting_le {deepest : Nat} (h : Walks above body contents steps)
    (habove : above ≤ deepest) (hopening : .opening (deepest + 1) ∉ steps) :
    above + Node.nestingOfAll contents.children ≤ deepest := by
  induction h with
  | nil => simpa [Contents.empty, Node.nestingOfAll] using habove
  | terminal token hkind hrest ih => exact ih habove fun hmem ↦ hopening (.tail _ hmem)
  | @rule above name production rest inner contents front back hproduction hinner _ ihInner
      ihRest =>
    simp only [List.mem_append, not_or] at hopening
    obtain ⟨⟨hname, hfront⟩, hback⟩ := hopening
    have hnode : above + (inner.toNode name production.body).nesting ≤ deepest := by
      rw [hinner.fills.nesting_toNode name, ← Nat.add_assoc]
      refine ihInner ?_ hfront
      split
      next hnests =>
        have hne : deepest ≠ above := by simpa [hnests] using hname
        omega
      next => exact habove
    change above + max _ (Node.nestingOfAll contents.children) ≤ deepest
    have hrest := ihRest habove hback
    omega

end Sizes

end CExpr
