import CExpr.Proofs.Grammar.Walk
import CExpr.Proofs.Operator.Table

/-!
# Derivations and productions

A parse goes by productions, and each of them is one of the constructors of derivations. Whatever
fills a production makes a derivation, and the walk through a derivation goes by productions, so the
trees and the tokens are the same.
-/

namespace CExpr

open Parse (Contents)

namespace Derivation

/-- The tokens and derivations for the symbols of a body. -/
inductive Parts : List Symbol → Type
  | nil : Parts []
  | terminal {kind : Kind} {role : Role} {rest : List Symbol} (token : Token)
      (hkind : token.kind = kind) (more : Parts rest) : Parts (.terminal kind role :: rest)
  | rule {name : NonTerminal} {rest : List Symbol} (part : Derivation name) (more : Parts rest) :
      Parts (.rule name :: rest)

namespace Parts

/-- What a parse gathers from the body. -/
def contents : {body : List Symbol} → Parts body → Contents
  | _, nil => .empty
  | _, terminal token _ more => more.contents.withTerminal token
  | _, rule part more => more.contents.withChild part.toNode

@[simp] def leaves : {body : List Symbol} → Parts body → List Leaf
  | _, nil => []
  | _, terminal token _ more => .plain token :: more.leaves
  | _, rule part more => part.leaves ++ more.leaves

def tokens {body : List Symbol} (parts : Parts body) : List Token :=
  parts.leaves.map Leaf.token

theorem eq_nil (parts : Parts []) : parts = nil := by
  cases parts
  rfl

theorem exists_eq_terminal {kind : Kind} {role : Role} {rest : List Symbol}
    (parts : Parts (.terminal kind role :: rest)) :
    ∃ token hkind more, parts = terminal token hkind more := by
  cases parts
  exact ⟨_, _, _, rfl⟩

theorem exists_eq_rule {name : NonTerminal} {rest : List Symbol}
    (parts : Parts (.rule name :: rest)) : ∃ part more, parts = rule part more := by
  cases parts
  exact ⟨_, _, rfl⟩

theorem exists_eq_single {name : NonTerminal} (parts : Parts [.rule name]) :
    ∃ part, parts = rule part nil := by
  obtain ⟨part, more, rfl⟩ := parts.exists_eq_rule
  obtain rfl := more.eq_nil
  exact ⟨part, rfl⟩

end Parts

/-- The body with these parts makes a derivation of the rule. -/
def IsDerivation (rule : NonTerminal) {body : List Symbol} (parts : Parts body) : Prop :=
  ∃ derivation : Derivation rule,
    derivation.toNode = parts.contents.toNode rule body ∧ derivation.tokens = parts.tokens

section

variable {production : Production}

theorem isDerivation_suffixedRest (hproduction : production ∈ NonTerminal.suffixedRest.productions)
    (parts : Parts production.body) : IsDerivation .suffixedRest parts := by
  simp only [NonTerminal.productions, List.mem_cons, List.not_mem_nil, or_false] at hproduction
  rcases hproduction with rfl | rfl | rfl | rfl | rfl | rfl | rfl
  · obtain ⟨sign, hsign, more, rfl⟩ := parts.exists_eq_terminal
    obtain ⟨rest, rfl⟩ := more.exists_eq_single
    exact ⟨.step sign .increment (by rw [hsign]; rfl) rfl rest, rfl,
      by simp [Parts.tokens, tokens]⟩
  · obtain ⟨sign, hsign, more, rfl⟩ := parts.exists_eq_terminal
    obtain ⟨rest, rfl⟩ := more.exists_eq_single
    exact ⟨.step sign .decrement (by rw [hsign]; rfl) rfl rest, rfl,
      by simp [Parts.tokens, tokens]⟩
  · obtain ⟨sign, hsign, more, rfl⟩ := parts.exists_eq_terminal
    obtain ⟨member, hmember, more, rfl⟩ := more.exists_eq_terminal
    obtain ⟨rest, rfl⟩ := more.exists_eq_single
    exact ⟨.selection sign .arrow (by rw [hsign]; rfl) rfl member hmember rest, rfl,
      by simp [Parts.tokens, tokens]⟩
  · obtain ⟨sign, hsign, more, rfl⟩ := parts.exists_eq_terminal
    obtain ⟨member, hmember, more, rfl⟩ := more.exists_eq_terminal
    obtain ⟨rest, rfl⟩ := more.exists_eq_single
    exact ⟨.selection sign .dot (by rw [hsign]; rfl) rfl member hmember rest, rfl,
      by simp [Parts.tokens, tokens]⟩
  · obtain ⟨opening, hopening, more, rfl⟩ := parts.exists_eq_terminal
    obtain ⟨body, more, rfl⟩ := more.exists_eq_rule
    obtain ⟨closing, hclosing, more, rfl⟩ := more.exists_eq_terminal
    obtain ⟨rest, rfl⟩ := more.exists_eq_single
    exact ⟨.index opening hopening body closing hclosing rest, rfl,
      by simp [Parts.tokens, tokens]⟩
  · obtain ⟨opening, hopening, more, rfl⟩ := parts.exists_eq_terminal
    obtain ⟨list, more, rfl⟩ := more.exists_eq_rule
    obtain ⟨closing, hclosing, more, rfl⟩ := more.exists_eq_terminal
    obtain ⟨rest, rfl⟩ := more.exists_eq_single
    exact ⟨.call opening hopening list closing hclosing rest, rfl,
      by simp [Parts.tokens, tokens]⟩
  · obtain rfl := parts.eq_nil
    exact ⟨.noSuffix, rfl, rfl⟩

theorem isDerivation_primary (hproduction : production ∈ NonTerminal.primary.productions)
    (parts : Parts production.body) : IsDerivation .primary parts := by
  simp only [NonTerminal.productions, List.mem_cons, List.not_mem_nil, or_false] at hproduction
  rcases hproduction with rfl | rfl | rfl | rfl
  case inr.inr.inr =>
    obtain ⟨opening, hopening, more, rfl⟩ := parts.exists_eq_terminal
    obtain ⟨body, more, rfl⟩ := more.exists_eq_rule
    obtain ⟨closing, hclosing, more, rfl⟩ := more.exists_eq_terminal
    obtain rfl := more.eq_nil
    exact ⟨.group opening hopening body closing hclosing, rfl, by simp [Parts.tokens, tokens]⟩
  all_goals
    obtain ⟨token, htoken, more, rfl⟩ := parts.exists_eq_terminal
    obtain rfl := more.eq_nil
    exact ⟨.atom token (by simp [htoken]), rfl, rfl⟩

/-- Whatever fills a production with derivations is a derivation. -/
theorem isDerivation_of_mem {rule : NonTerminal} (hproduction : production ∈ rule.productions)
    (parts : Parts production.body) : IsDerivation rule parts := by
  cases rule
  case suffixedRest => exact isDerivation_suffixedRest hproduction parts
  case primary => exact isDerivation_primary hproduction parts
  all_goals
    simp only [NonTerminal.productions, List.mem_append, List.mem_map, List.mem_cons,
      List.not_mem_nil, or_false] at hproduction
  case root =>
    subst hproduction
    obtain ⟨body, more, rfl⟩ := parts.exists_eq_rule
    obtain ⟨stop, hstop, more, rfl⟩ := more.exists_eq_terminal
    obtain rfl := more.eq_nil
    exact ⟨.root body stop hstop, rfl, by simp [Parts.tokens, tokens]⟩
  case expression =>
    subst hproduction
    obtain ⟨body, rfl⟩ := parts.exists_eq_single
    exact ⟨.expression body, rfl, by simp [Parts.tokens, tokens]⟩
  case assignment =>
    subst hproduction
    obtain ⟨target, more, rfl⟩ := parts.exists_eq_rule
    obtain ⟨rest, rfl⟩ := more.exists_eq_single
    exact ⟨.assignment target rest, rfl, by simp [Parts.tokens, tokens]⟩
  case assignmentRest =>
    rcases hproduction with ⟨⟨kind, op⟩, hmem, rfl⟩ | rfl
    · obtain ⟨sign, hsign, more, rfl⟩ := parts.exists_eq_terminal
      obtain ⟨value, rfl⟩ := more.exists_eq_single
      have hop : AssignOp.ofKind? sign.kind = some op := by
        rw [hsign]
        exact AssignOp.ofKind?_eq_some_iff.2 hmem
      exact ⟨.assign sign op hop value, rfl, by simp [Parts.tokens, tokens]⟩
    · obtain rfl := parts.eq_nil
      exact ⟨.noAssignment, rfl, rfl⟩
  case conditional =>
    subst hproduction
    obtain ⟨condition, more, rfl⟩ := parts.exists_eq_rule
    obtain ⟨rest, rfl⟩ := more.exists_eq_single
    exact ⟨.conditional condition rest, rfl, by simp [Parts.tokens, tokens]⟩
  case conditionalRest =>
    rcases hproduction with rfl | rfl
    · obtain ⟨question, hquestion, more, rfl⟩ := parts.exists_eq_terminal
      obtain ⟨whenTrue, more, rfl⟩ := more.exists_eq_rule
      obtain ⟨colon, hcolon, more, rfl⟩ := more.exists_eq_terminal
      obtain ⟨whenFalse, rfl⟩ := more.exists_eq_single
      exact ⟨.choice question hquestion whenTrue colon hcolon whenFalse, rfl,
        by simp [Parts.tokens, tokens]⟩
    · obtain rfl := parts.eq_nil
      exact ⟨.noChoice, rfl, rfl⟩
  case tier =>
    subst hproduction
    obtain ⟨first, more, rfl⟩ := parts.exists_eq_rule
    obtain ⟨rest, rfl⟩ := more.exists_eq_single
    exact ⟨.tier first rest, rfl, by simp [Parts.tokens, tokens]⟩
  case tierRest t =>
    rcases hproduction with ⟨⟨kind, op⟩, hmem, rfl⟩ | rfl
    · obtain ⟨sign, hsign, more, rfl⟩ := parts.exists_eq_terminal
      obtain ⟨operand, more, rfl⟩ := more.exists_eq_rule
      obtain ⟨rest, rfl⟩ := more.exists_eq_single
      have hop : t.operator? sign.kind = some op := by
        rw [hsign]
        exact Tier.operator?_eq_some_iff.2 hmem
      exact ⟨.operator sign op hop operand rest, rfl, by simp [Parts.tokens, tokens]⟩
    · obtain rfl := parts.eq_nil
      exact ⟨.noOperator, rfl, rfl⟩
  case cast =>
    subst hproduction
    obtain ⟨body, rfl⟩ := parts.exists_eq_single
    exact ⟨.cast body, rfl, by simp [Parts.tokens, tokens]⟩
  case unary =>
    rcases hproduction with ⟨⟨kind, op⟩, hmem, rfl⟩ | rfl
    · obtain ⟨sign, hsign, more, rfl⟩ := parts.exists_eq_terminal
      obtain ⟨operand, rfl⟩ := more.exists_eq_single
      have hop : UnaryOp.ofKind? sign.kind = some op := by
        rw [hsign]
        exact UnaryOp.ofKind?_eq_some_iff.2 hmem
      exact ⟨.prefixed sign op hop operand, rfl, by simp [Parts.tokens, tokens]⟩
    · obtain ⟨body, rfl⟩ := parts.exists_eq_single
      exact ⟨.unprefixed body, rfl, by simp [Parts.tokens, tokens]⟩
  case suffixed =>
    subst hproduction
    obtain ⟨first, more, rfl⟩ := parts.exists_eq_rule
    obtain ⟨rest, rfl⟩ := more.exists_eq_single
    exact ⟨.suffixed first rest, rfl, by simp [Parts.tokens, tokens]⟩
  case argumentList =>
    rcases hproduction with rfl | rfl
    · obtain rfl := parts.eq_nil
      exact ⟨.noArguments, rfl, rfl⟩
    · obtain ⟨first, more, rfl⟩ := parts.exists_eq_rule
      obtain ⟨rest, rfl⟩ := more.exists_eq_single
      exact ⟨.arguments first rest, rfl, by simp [Parts.tokens, tokens]⟩
  case argumentListRest =>
    rcases hproduction with rfl | rfl
    · obtain ⟨comma, hcomma, more, rfl⟩ := parts.exists_eq_terminal
      obtain ⟨first, more, rfl⟩ := more.exists_eq_rule
      obtain ⟨rest, rfl⟩ := more.exists_eq_single
      exact ⟨.argument comma hcomma first rest, rfl, by simp [Parts.tokens, tokens]⟩
    · obtain rfl := parts.eq_nil
      exact ⟨.noArgument, rfl, rfl⟩

/-- A parse fills bodies with derivations. -/
theorem exists_parts_of_fills {body : List Symbol} {contents : Contents} {words : List Token}
    (h : Fills body contents words) :
    ∃ parts : Parts body, parts.contents = contents ∧ parts.tokens = words := by
  induction h with
  | nil => exact ⟨.nil, rfl, rfl⟩
  | terminal token hkind _ ih =>
    obtain ⟨parts, hcontents, htokens⟩ := ih
    refine ⟨.terminal token hkind parts, ?_, ?_⟩
    · rw [Parts.contents, hcontents]
    · rw [← htokens]
      rfl
  | rule hproduction _ _ ihInner ihRest =>
    obtain ⟨inner, hinnerContents, hinnerTokens⟩ := ihInner
    obtain ⟨part, hnode, hpart⟩ := isDerivation_of_mem hproduction inner
    obtain ⟨parts, hcontents, htokens⟩ := ihRest
    refine ⟨.rule part parts, ?_, ?_⟩
    · rw [Parts.contents, hcontents, hnode, hinnerContents]
    · rw [← htokens, ← hinnerTokens, ← hpart]
      simp [Parts.tokens, tokens]

end

section

variable {rule : NonTerminal}

theorem walked_of_mem (production : Production) {above : Nat} {contents : Contents}
    {inner : List Step} {derivation : Derivation rule} (hproduction : production ∈ rule.productions)
    (h : Walks (above + if rule.nests then 1 else 0) production.body contents inner)
    (hnode : derivation.toNode = contents.toNode rule production.body)
    (hsteps : derivation.steps above =
      (if rule.nests then [.opening (above + 1)] else []) ++ inner) :
    Walked above rule derivation.toNode (derivation.steps above) :=
  ⟨production, hproduction, contents, inner, h, hnode, hsteps⟩

open Production in
/-- The walk through a derivation goes by productions. -/
theorem walked (derivation : Derivation rule) (above : Nat) :
    Walked above rule derivation.toNode (derivation.steps above) := by
  induction derivation generalizing above with
  | root body stop hstop ih =>
    exact walked_of_mem (otherwise rootBody) List.mem_cons_self
      ((ih _).walks (.terminal stop hstop .nil)) rfl (by simp [steps, NonTerminal.nests])
  | expression body ih =>
    exact walked_of_mem (otherwise [.rule .assignment]) List.mem_cons_self ((ih _).walks .nil) rfl
      (by simp [steps, NonTerminal.nests])
  | assignment target rest ihTarget ihRest =>
    exact walked_of_mem (otherwise [.rule .conditional, .rule .assignmentRest])
      List.mem_cons_self ((ihTarget _).walks ((ihRest _).walks .nil)) rfl
      (by simp [steps, NonTerminal.nests])
  | noAssignment =>
    exact walked_of_mem (otherwise []) (List.mem_append_right _ List.mem_cons_self) .nil rfl rfl
  | assign sign op hsign value ih =>
    have hmem : leading sign.kind [.rule .assignment] ∈ NonTerminal.assignmentRest.productions :=
      List.mem_append_left _ (List.mem_map.2 ⟨_, AssignOp.ofKind?_eq_some_iff.1 hsign, rfl⟩)
    exact walked_of_mem _ hmem
      (.terminal sign rfl ((ih _).walks .nil)) rfl (by simp [steps, NonTerminal.nests])
  | conditional condition rest ihCondition ihRest =>
    exact walked_of_mem (otherwise [.rule (.tier .loosest), .rule .conditionalRest])
      List.mem_cons_self ((ihCondition _).walks ((ihRest _).walks .nil)) rfl
      (by simp [steps, NonTerminal.nests])
  | noChoice =>
    exact walked_of_mem (otherwise []) (by simp [NonTerminal.productions]) .nil rfl rfl
  | choice question hquestion whenTrue colon hcolon whenFalse ihTrue ihFalse =>
    exact walked_of_mem
      (leading (.punct '?')
        [.rule .expression, .terminal (.punct ':') (.required .conditional), .rule .conditional])
      List.mem_cons_self (.terminal question hquestion
        ((ihTrue _).walks (.terminal colon hcolon ((ihFalse _).walks .nil)))) rfl
      (by simp [steps, NonTerminal.nests])
  | @tier t first rest ihFirst ihRest =>
    exact walked_of_mem (otherwise [.rule t.operand, .rule (.tierRest t)]) List.mem_cons_self
      ((ihFirst _).walks ((ihRest _).walks .nil)) rfl (by simp [steps, NonTerminal.nests])
  | noOperator =>
    exact walked_of_mem (otherwise []) (List.mem_append_right _ List.mem_cons_self) .nil rfl rfl
  | @operator t sign op hsign operand rest ihOperand ihRest =>
    have hmem : counted sign.kind [.rule t.operand, .rule (.tierRest t)] ∈
        (NonTerminal.tierRest t).productions :=
      List.mem_append_left _ (List.mem_map.2 ⟨_, Tier.operator?_eq_some_iff.1 hsign, rfl⟩)
    exact walked_of_mem _ hmem
      (.terminal sign rfl ((ihOperand _).walks ((ihRest _).walks .nil))) rfl
      (by simp [steps, NonTerminal.nests])
  | cast body ih =>
    exact walked_of_mem (otherwise [.rule .unary]) List.mem_cons_self ((ih _).walks .nil) rfl
      (by simp [steps, NonTerminal.nests])
  | prefixed sign op hsign operand ih =>
    have hmem : leading sign.kind [.rule .cast] ∈ NonTerminal.unary.productions :=
      List.mem_append_left _ (List.mem_map.2 ⟨_, UnaryOp.ofKind?_eq_some_iff.1 hsign, rfl⟩)
    exact walked_of_mem _ hmem
      (.terminal sign rfl ((ih _).walks .nil)) rfl (by simp [steps, NonTerminal.nests])
  | unprefixed body ih =>
    exact walked_of_mem (otherwise [.rule .suffixed])
      (List.mem_append_right _ List.mem_cons_self) ((ih _).walks .nil) rfl
      (by simp [steps, NonTerminal.nests])
  | suffixed first rest ihFirst ihRest =>
    exact walked_of_mem (otherwise [.rule .primary, .rule .suffixedRest]) List.mem_cons_self
      ((ihFirst _).walks ((ihRest _).walks .nil)) rfl (by simp [steps, NonTerminal.nests])
  | noSuffix =>
    exact walked_of_mem (otherwise []) (by simp [NonTerminal.productions]) .nil rfl rfl
  | step sign op hsign hop rest ih =>
    have hmem : counted sign.kind [.rule .suffixedRest] ∈ NonTerminal.suffixedRest.productions := by
      have hkind := SuffixOp.ofKind?_eq_some_iff.1 hsign
      rcases SuffixOp.isStep_iff.1 hop with rfl | rfl <;>
        simp_all [SuffixOp.table, NonTerminal.productions]
    exact walked_of_mem _ hmem (.terminal sign rfl ((ih _).walks .nil)) rfl
      (by simp [steps, NonTerminal.nests])
  | selection sign op hsign hop member hmember rest ih =>
    have hmem : counted sign.kind [.terminal .identifier (.required .member), .rule .suffixedRest] ∈
        NonTerminal.suffixedRest.productions := by
      have hkind := SuffixOp.ofKind?_eq_some_iff.1 hsign
      rcases SuffixOp.isSelection_iff.1 hop with rfl | rfl <;>
        simp_all [SuffixOp.table, NonTerminal.productions]
    exact walked_of_mem _ hmem (.terminal sign rfl (.terminal member hmember ((ih _).walks .nil)))
      rfl (by simp [steps, NonTerminal.nests])
  | index opening hopening body closing hclosing rest ihBody ihRest =>
    exact walked_of_mem
      (counted (.punct '[')
        [.rule .expression, .terminal (.punct ']') (.required .index), .rule .suffixedRest])
      (by simp [NonTerminal.productions])
      (.terminal opening hopening
        ((ihBody _).walks (.terminal closing hclosing ((ihRest _).walks .nil)))) rfl
      (by simp [steps, NonTerminal.nests])
  | call opening hopening list closing hclosing rest ihList ihRest =>
    exact walked_of_mem
      (counted (.punct '(')
        [.rule .argumentList, .terminal (.punct ')') (.required .arguments), .rule .suffixedRest])
      (by simp [NonTerminal.productions])
      (.terminal opening hopening
        ((ihList _).walks (.terminal closing hclosing ((ihRest _).walks .nil)))) rfl
      (by simp [steps, NonTerminal.nests])
  | noArguments => exact walked_of_mem ⟨some (.punct ')'), []⟩ List.mem_cons_self .nil rfl rfl
  | arguments first rest ihFirst ihRest =>
    exact walked_of_mem (otherwise [.rule .assignment, .rule .argumentListRest])
      (by simp [NonTerminal.productions]) ((ihFirst _).walks ((ihRest _).walks .nil)) rfl
      (by simp [steps, NonTerminal.nests])
  | noArgument =>
    exact walked_of_mem (otherwise []) (by simp [NonTerminal.productions]) .nil rfl rfl
  | argument comma hcomma first rest ihFirst ihRest =>
    exact walked_of_mem (counted (.punct ',') [.rule .assignment, .rule .argumentListRest])
      List.mem_cons_self (.terminal comma hcomma ((ihFirst _).walks ((ihRest _).walks .nil))) rfl
      (by simp [steps, NonTerminal.nests])
  | atom token htoken =>
    have hmem : leading token.kind [] ∈ NonTerminal.primary.productions := by
      simp only [List.mem_cons, List.not_mem_nil, or_false] at htoken
      rcases htoken with h | h | h <;> simp [NonTerminal.productions, h]
    exact walked_of_mem _ hmem (.terminal token rfl .nil) rfl (by simp [steps, NonTerminal.nests])
  | group opening hopening body closing hclosing ih =>
    exact walked_of_mem
      (leading (.punct '(') [.rule .expression, .terminal (.punct ')') (.required .expression)])
      (by simp [NonTerminal.productions])
      (.terminal opening hopening ((ih _).walks (.terminal closing hclosing .nil))) rfl
      (by simp [steps, NonTerminal.nests])

/-- A parse goes by productions that give every derivation. -/
theorem derives (derivation : Derivation rule) :
    Derives rule derivation.toNode derivation.tokens := by
  obtain ⟨production, hproduction, contents, inner, hwalks, hnode, hsteps⟩ := derivation.walked 0
  refine ⟨production, hproduction, contents, ?_, hnode⟩
  have htokens : walkedTokens inner = derivation.tokens := by
    rw [← derivation.walkedTokens_steps 0, hsteps]
    split <;> simp
  rw [← htokens]
  exact hwalks.fills

end

end Derivation

/-- The trees and tokens of derivations are those that the productions of a parse give. -/
theorem derives_iff {rule : NonTerminal} {node : Node} {words : List Token} :
    Derives rule node words ↔
      ∃ derivation : Derivation rule, derivation.toNode = node ∧ derivation.tokens = words := by
  constructor
  · intro h
    obtain ⟨production, hproduction, contents, hfills, hnode⟩ := h
    obtain ⟨parts, hcontents, htokens⟩ := Derivation.exists_parts_of_fills hfills
    rw [hnode, ← hcontents, ← htokens]
    exact Derivation.isDerivation_of_mem hproduction parts
  · intro h
    obtain ⟨derivation, hnode, htokens⟩ := h
    rw [← hnode, ← htokens]
    exact derivation.derives

end CExpr
