import CExpr.Parse.Run

/-!
# Filled bodies

A body is filled by tokens and nodes when each of its terminals stands for one token of its kind and
each of its rules for a node that applies one of the productions of the rule. The tokens of a filled
body are those of its terminals and nodes in the order of the body. How a production is chosen plays
no part here.
-/

namespace CExpr

open Parse (Contents)

/-- The contents of a body, with all tokens in it from left to right. -/
inductive Fills : List Symbol → Contents → List Token → Prop
  | nil : Fills [] .empty []
  | terminal {kind : Kind} {role : Role} {rest : List Symbol} {contents : Contents}
      {tokens : List Token} (token : Token) (hkind : token.kind = kind)
      (hrest : Fills rest contents tokens) :
      Fills (.terminal kind role :: rest) (contents.withTerminal token) (token :: tokens)
  | rule {name : NonTerminal} {production : Production} {rest : List Symbol}
      {inner contents : Contents} {front back : List Token}
      (hproduction : production ∈ name.productions)
      (hinner : Fills production.body inner front) (hrest : Fills rest contents back) :
      Fills (.rule name :: rest) (contents.withChild (inner.toNode name production.body))
        (front ++ back)

/-- The node applies a production of the rule to the tokens. -/
def Derives (rule : NonTerminal) (node : Node) (tokens : List Token) : Prop :=
  ∃ production ∈ rule.productions, ∃ contents,
    Fills production.body contents tokens ∧ node = contents.toNode rule production.body

theorem Fills.derives {rule : NonTerminal} {production : Production} {contents : Contents}
    {tokens : List Token} (hproduction : production ∈ rule.productions)
    (h : Fills production.body contents tokens) :
    Derives rule (contents.toNode rule production.body) tokens :=
  ⟨production, hproduction, contents, h, rfl⟩

theorem Derives.fills {rule : NonTerminal} {node : Node} {rest : List Symbol}
    {contents : Contents} {front back : List Token} (hnode : Derives rule node front)
    (hrest : Fills rest contents back) :
    Fills (.rule rule :: rest) (contents.withChild node) (front ++ back) := by
  obtain ⟨production, hproduction, inner, hinner, rfl⟩ := hnode
  exact .rule hproduction hinner hrest

@[simp] theorem fills_nil_iff {contents : Contents} {tokens : List Token} :
    Fills [] contents tokens ↔ contents = .empty ∧ tokens = [] := by
  constructor
  · rintro ⟨⟩
    exact ⟨rfl, rfl⟩
  · rintro ⟨rfl, rfl⟩
    exact .nil

@[simp] theorem fills_terminal_iff {kind : Kind} {role : Role} {rest : List Symbol}
    {contents : Contents} {tokens : List Token} :
    Fills (.terminal kind role :: rest) contents tokens ↔
      ∃ token inner back, token.kind = kind ∧ Fills rest inner back ∧
        contents = inner.withTerminal token ∧ tokens = token :: back := by
  constructor
  · intro h
    cases h with
    | terminal token hkind hrest => exact ⟨token, _, _, hkind, hrest, rfl, rfl⟩
  · rintro ⟨token, inner, back, hkind, hrest, rfl, rfl⟩
    exact .terminal token hkind hrest

@[simp] theorem fills_rule_iff {name : NonTerminal} {rest : List Symbol} {contents : Contents}
    {tokens : List Token} :
    Fills (.rule name :: rest) contents tokens ↔
      ∃ node inner front back, Derives name node front ∧ Fills rest inner back ∧
        contents = inner.withChild node ∧ tokens = front ++ back := by
  constructor
  · intro h
    cases h with
    | rule hproduction hinner hrest =>
      exact ⟨_, _, _, _, hinner.derives hproduction, hrest, rfl, rfl⟩
  · rintro ⟨node, inner, front, back, hnode, hrest, rfl, rfl⟩
    exact hnode.fills hrest

/-! ## Shown tokens -/

theorem Node.terminals_subset (node : Node) : node.terminals ⊆ node.heldTerminals := by
  unfold terminals
  split <;> simp

theorem Node.children_subset (node : Node) : node.children ⊆ node.heldChildren := by
  unfold children
  split <;> simp

/-- The tokens that filled contents show, at whatever depth, are those that fill them. -/
theorem Fills.shown_subset {body : List Symbol} {contents : Contents} {tokens : List Token}
    (h : Fills body contents tokens) :
    contents.terminals ⊆ tokens ∧
      ∀ child ∈ contents.children, ∀ depth, ∀ row ∈ child.rowsAt depth, row.terminals ⊆ tokens := by
  induction h with
  | nil => simp [Contents.empty]
  | terminal token _ _ ih =>
    obtain ⟨hterminals, hchildren⟩ := ih
    refine ⟨List.cons_subset_cons token hterminals, fun child hchild depth row hrow ↦ ?_⟩
    exact List.subset_cons_of_subset token (hchildren child hchild depth row hrow)
  | @rule name production rest inner contents front back hproduction hinner hrest ihInner ihRest =>
    obtain ⟨hfront, hfrontChildren⟩ := ihInner
    obtain ⟨hback, hbackChildren⟩ := ihRest
    refine ⟨List.subset_append_of_subset_right front hback, fun child hchild depth row hrow ↦ ?_⟩
    rcases List.mem_cons.1 hchild with rfl | hchild
    · apply List.subset_append_of_subset_left back
      rw [Node.rowsAt_eq] at hrow
      rcases List.mem_cons.1 hrow with rfl | hbelow
      · exact List.Subset.trans (Node.terminals_subset _) hfront
      · obtain ⟨grandchild, hgrandchild, hrow⟩ := List.mem_flatMap.1 hbelow
        exact hfrontChildren grandchild (Node.children_subset _ hgrandchild) _ row hrow
    · exact List.subset_append_of_subset_right front (hbackChildren child hchild depth row hrow)

theorem Derives.shown_subset {rule : NonTerminal} {node : Node} {tokens : List Token}
    (h : Derives rule node tokens) : ∀ row ∈ node.rows, row.terminals ⊆ tokens := by
  obtain ⟨-, hchildren⟩ := (h.fills .nil).shown_subset
  rw [List.append_nil] at hchildren
  exact hchildren node List.mem_cons_self 0

/-! ## Words -/

/-- The symbols of the rules for expressions, which do not reach the end of the input. -/
def Symbol.isInner : Symbol → Bool
  | .terminal kind _ => kind != .endOfInput
  | .rule name => name != .root

theorem NonTerminal.isInner_of_mem {rule : NonTerminal} (hrule : rule ≠ .root)
    {production : Production} (h : production ∈ rule.productions) :
    production.body.all Symbol.isInner := by
  have hall : ∀ rule : NonTerminal, rule ≠ .root →
      ∀ p ∈ rule.productions, p.body.all Symbol.isInner := by decide
  exact hall rule hrule production h

/-- The tokens of an expression are words. -/
theorem Fills.kind_ne_endOfInput {body : List Symbol} {contents : Contents} {tokens : List Token}
    (h : Fills body contents tokens) (hbody : body.all Symbol.isInner) :
    ∀ token ∈ tokens, token.kind ≠ .endOfInput := by
  induction h with
  | nil => simp
  | terminal token hkind _ ih =>
    simp only [List.all_cons, Bool.and_eq_true] at hbody
    obtain ⟨hsymbol, hrest⟩ := hbody
    rintro other (_ | ⟨_, hother⟩)
    · simpa [Symbol.isInner, ← hkind] using hsymbol
    · exact ih hrest other hother
  | rule hproduction _ _ ihInner ihRest =>
    simp only [List.all_cons, Bool.and_eq_true] at hbody
    obtain ⟨hname, hrest⟩ := hbody
    have hinner := NonTerminal.isInner_of_mem (by simpa [Symbol.isInner] using hname) hproduction
    intro token htoken
    rcases List.mem_append.1 htoken with hfront | hback
    · exact ihInner hinner token hfront
    · exact ihRest hrest token hback

theorem Derives.kind_ne_endOfInput {rule : NonTerminal} {node : Node} {tokens : List Token}
    (h : Derives rule node tokens) (hrule : rule ≠ .root) :
    ∀ token ∈ tokens, token.kind ≠ .endOfInput := by
  obtain ⟨production, hproduction, contents, hfills, -⟩ := h
  exact hfills.kind_ne_endOfInput (NonTerminal.isInner_of_mem hrule hproduction)

/-! ## Whole trees -/

/-- The tokens of a whole tree are words and an end. -/
theorem derives_root_iff {root : Node} {tokens : List Token} :
    Derives .root root tokens ↔
      ∃ body words stop, Derives .expression body words ∧ stop.kind = .endOfInput ∧
        root = ⟨.root, false, [stop], [body]⟩ ∧ tokens = words ++ [stop] := by
  constructor
  · rintro ⟨production, hproduction, contents, hfills, rfl⟩
    obtain rfl : production = .otherwise rootBody := by
      simpa [NonTerminal.productions] using hproduction
    simp only [Production.otherwise, rootBody, fills_rule_iff, fills_terminal_iff,
      fills_nil_iff] at hfills
    obtain ⟨body, _, words, _, hbody, ⟨stop, _, _, hstop, ⟨rfl, rfl⟩, rfl, rfl⟩, rfl, rfl⟩ := hfills
    exact ⟨body, words, stop, hbody, hstop, rfl, rfl⟩
  · rintro ⟨body, words, stop, hbody, hstop, rfl, rfl⟩
    refine ⟨.otherwise rootBody, by simp [NonTerminal.productions], ?_⟩
    exact ⟨_, hbody.fills (.terminal stop hstop .nil), rfl⟩

end CExpr
