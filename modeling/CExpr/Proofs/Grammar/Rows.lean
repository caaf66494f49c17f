import CExpr.Proofs.Grammar.Fills

/-!
# Trees read back from their rows

The rows of a tree are its nodes from the top and from left to right, each with its depth. A row
that is no deeper than a node ends what is below that node, so a tree whose empty nodes hide nothing
is read back from its rows. The tree in turn gives back its tokens, for the kinds of the tokens and
the rules of the nodes that a node shows tell which production was applied, and so in which order
they stand. All of this goes for trees without places as well.
-/

namespace CExpr

open Parse (Contents)

/-! ## Bare trees -/

/-- Empty nodes hide nothing, at whatever depth. -/
inductive Node.IsBare : Node → Prop
  | empty (tag : NonTerminal) : IsBare ⟨tag, true, [], []⟩
  | full (tag : NonTerminal) (held : List Token) {nodes : List Node}
      (hnodes : ∀ child ∈ nodes, child.IsBare) : IsBare ⟨tag, false, held, nodes⟩

theorem Fills.isBare_toNode {body : List Symbol} {contents : Contents} {tokens : List Token}
    (h : Fills body contents tokens) (hchildren : ∀ child ∈ contents.children, child.IsBare)
    (rule : NonTerminal) : (contents.toNode rule body).IsBare := by
  cases h with
  | nil => exact .empty rule
  | terminal | rule => exact .full rule _ hchildren

theorem Fills.isBare_of_mem_children {body : List Symbol} {contents : Contents}
    {tokens : List Token} (h : Fills body contents tokens) :
    ∀ child ∈ contents.children, child.IsBare := by
  induction h with
  | nil => exact List.forall_mem_nil _
  | terminal _ _ _ ih => exact ih
  | rule _ hinner _ ihInner ihRest =>
    exact List.forall_mem_cons.2 ⟨hinner.isBare_toNode ihInner _, ihRest⟩

theorem Derives.isBare {rule : NonTerminal} {node : Node} {tokens : List Token}
    (h : Derives rule node tokens) : node.IsBare := by
  obtain ⟨production, -, contents, hfills, rfl⟩ := h
  exact hfills.isBare_toNode hfills.isBare_of_mem_children rule

/-! ## Rows of empty nodes -/

namespace Node

mutual

/-- A row of an empty node has no tokens. -/
theorem terminals_eq_nil_of_mem_rowsAt {depth : Nat} {row : Row} (hempty : row.isEmpty = true) :
    ∀ node : Node, row ∈ node.rowsAt depth → row.terminals = []
  | ⟨tag, true, held, nodes⟩, h => by
    obtain rfl := List.mem_singleton.1 h
    rfl
  | ⟨tag, false, held, nodes⟩, h => by
    rcases List.mem_cons.1 h with rfl | hbelow
    · cases hempty
    · exact terminals_eq_nil_of_mem_rowsOfAll hempty nodes hbelow

theorem terminals_eq_nil_of_mem_rowsOfAll {depth : Nat} {row : Row} (hempty : row.isEmpty = true) :
    ∀ nodes : List Node, row ∈ rowsOfAll depth nodes → row.terminals = []
  | [], h => by cases h
  | node :: nodes, h => by
    rcases List.mem_append.1 h with hnode | hnodes
    · exact terminals_eq_nil_of_mem_rowsAt hempty node hnode
    · exact terminals_eq_nil_of_mem_rowsOfAll hempty nodes hnodes

end

/-! ## Reading back -/

/-- What is below a node of the depth ends where these rows begin. -/
def EndsBelow (depth : Nat) (rows : List Row) : Prop :=
  ∀ row, rows.head? = some row → row.depth ≤ depth

theorem endsBelow_nil (depth : Nat) : EndsBelow depth [] := nofun

theorem endsBelow_rowsOfAll_append {depth : Nat} {behind : List Row} (h : EndsBelow depth behind)
    (nodes : List Node) : EndsBelow (depth + 1) (rowsOfAll (depth + 1) nodes ++ behind) := by
  cases nodes with
  | nil => exact fun row hrow ↦ Nat.le_succ_of_le (h row hrow)
  | cons node nodes =>
    intro row hrow
    rw [rowsOfAll, rowsAt_eq] at hrow
    obtain rfl := Option.some.inj hrow
    exact Nat.le_refl _

/-- A row that ends what is below a node is not one below it. -/
theorem not_endsBelow_rowsOfAll_cons (depth : Nat) (node : Node) (nodes : List Node)
    (behind : List Row) :
    ¬EndsBelow depth (rowsOfAll (depth + 1) (node :: nodes) ++ behind) := by
  rw [rowsOfAll, rowsAt_eq]
  intro h
  exact Nat.not_succ_le_self depth (h _ rfl)

/-- Rows that begin with those of the node, and go on where what is below it ends, begin with the
rows of no other node in that way. -/
def IsReadBack (node : Node) : Prop :=
  ∀ {depth : Nat} {other : Node} {behind more : List Row}, other.IsBare → EndsBelow depth behind →
    EndsBelow depth more → node.rowsAt depth ++ behind = other.rowsAt depth ++ more →
    node = other ∧ behind = more

/-- Children are read back one after the other, each up to the row of the next one. -/
theorem eq_of_rowsOfAll_append {nodes others : List Node} (hnodes : ∀ node ∈ nodes, node.IsReadBack)
    (hothers : ∀ other ∈ others, other.IsBare) {depth : Nat} {behind more : List Row}
    (hbehind : EndsBelow depth behind) (hmore : EndsBelow depth more)
    (h : rowsOfAll (depth + 1) nodes ++ behind = rowsOfAll (depth + 1) others ++ more) :
    nodes = others ∧ behind = more := by
  induction nodes generalizing others with
  | nil =>
    cases others with
    | nil => exact ⟨rfl, h⟩
    | cons other others =>
      have h : behind = rowsOfAll (depth + 1) (other :: others) ++ more := h
      exact absurd (h ▸ hbehind) (not_endsBelow_rowsOfAll_cons depth other others more)
  | cons node nodes ih =>
    cases others with
    | nil =>
      have h : rowsOfAll (depth + 1) (node :: nodes) ++ behind = more := h
      exact absurd (h ▸ hmore) (not_endsBelow_rowsOfAll_cons depth node nodes behind)
    | cons other others =>
      obtain ⟨hnode, hnodes⟩ := List.forall_mem_cons.1 hnodes
      obtain ⟨hother, hothers⟩ := List.forall_mem_cons.1 hothers
      rw [rowsOfAll, rowsOfAll, List.append_assoc, List.append_assoc] at h
      obtain ⟨hfirst, hrest⟩ := hnode hother (endsBelow_rowsOfAll_append hbehind nodes)
        (endsBelow_rowsOfAll_append hmore others) h
      obtain ⟨hnext, hend⟩ := ih hnodes hothers hrest
      exact ⟨by rw [hfirst, hnext], hend⟩

theorem IsBare.isReadBack {node : Node} (h : node.IsBare) : node.IsReadBack := by
  induction h with
  | empty tag =>
    intro depth other behind more hother _ _ heq
    cases hother with
    | empty other =>
      obtain ⟨hrow, hbehind⟩ := List.cons.inj heq
      cases hrow
      exact ⟨rfl, hbehind⟩
    | full other held hnodes =>
      obtain ⟨hrow, -⟩ := List.cons.inj heq
      cases hrow
  | full tag held hnodes ih =>
    intro depth other behind more hother hbehind hmore heq
    cases hother with
    | empty other =>
      obtain ⟨hrow, -⟩ := List.cons.inj heq
      cases hrow
    | full other otherHeld hothers =>
      obtain ⟨hrow, hrest⟩ := List.cons.inj heq
      cases hrow
      obtain ⟨rfl, rfl⟩ := eq_of_rowsOfAll_append ih hothers hbehind hmore hrest
      exact ⟨rfl, rfl⟩

/-- Trees whose empty nodes hide nothing are the same when their rows are. -/
theorem IsBare.eq_of_rows_eq {node other : Node} (h : node.IsBare) (hother : other.IsBare)
    (hrows : node.rows = other.rows) : node = other := by
  have hends := endsBelow_nil 0
  refine (h.isReadBack hother hends hends ?_).1
  rw [List.append_nil, List.append_nil]
  exact hrows

end Node

/-! ## The tokens of a tree -/

def Symbol.kind? : Symbol → Option Kind
  | terminal kind _ => some kind
  | rule _ => none

def Symbol.rule? : Symbol → Option NonTerminal
  | terminal _ _ => none
  | rule name => some name

/-- The kinds of its tokens and the rules of its nodes, each for themselves, tell a production from
the others of its rule. -/
theorem NonTerminal.production_eq {rule : NonTerminal} {first second : Production}
    (hfirst : first ∈ rule.productions) (hsecond : second ∈ rule.productions)
    (hkinds : first.body.filterMap Symbol.kind? = second.body.filterMap Symbol.kind?)
    (hrules : first.body.filterMap Symbol.rule? = second.body.filterMap Symbol.rule?) :
    first = second := by
  have hall : ∀ rule : NonTerminal, ∀ first ∈ rule.productions, ∀ second ∈ rule.productions,
      first.body.filterMap Symbol.kind? = second.body.filterMap Symbol.kind? →
      first.body.filterMap Symbol.rule? = second.body.filterMap Symbol.rule? →
      first = second := by decide +kernel
  exact hall rule first hfirst second hsecond hkinds hrules

theorem Fills.map_kind_terminals {body : List Symbol} {contents : Contents} {tokens : List Token}
    (h : Fills body contents tokens) :
    contents.terminals.map Token.kind = body.filterMap Symbol.kind? := by
  induction h with
  | nil => rfl
  | terminal token hkind _ ih =>
    subst hkind
    exact congrArg (token.kind :: ·) ih
  | rule _ _ _ _ ihRest => exact ihRest

theorem Fills.map_tag_children {body : List Symbol} {contents : Contents} {tokens : List Token}
    (h : Fills body contents tokens) :
    contents.children.map Node.tag = body.filterMap Symbol.rule? := by
  induction h with
  | nil => rfl
  | terminal _ _ _ ih => exact ih
  | @rule name _ _ _ _ _ _ _ _ _ _ ihRest => exact congrArg (name :: ·) ihRest

theorem Parse.Contents.withTerminal_inj {token otherToken : Token} {contents other : Contents}
    (h : contents.withTerminal token = other.withTerminal otherToken) :
    token = otherToken ∧ contents = other := by
  cases contents
  cases other
  simp_all [withTerminal]

theorem Parse.Contents.withChild_inj {node otherNode : Node} {contents other : Contents}
    (h : contents.withChild node = other.withChild otherNode) :
    node = otherNode ∧ contents = other := by
  cases contents
  cases other
  simp_all [withChild]

theorem Parse.Contents.toNode_inj {rule : NonTerminal} {body otherBody : List Symbol}
    {contents other : Contents} (h : contents.toNode rule body = other.toNode rule otherBody) :
    contents = other := by
  obtain ⟨-, -, hterminals, hchildren⟩ := Node.mk.inj h
  cases contents
  cases other
  simp_all

/-- The same contents of one body have their tokens in one order. A node is made by one production,
so what is below it is compared in turn. -/
theorem Fills.tokens_unique {body : List Symbol} {contents : Contents} {tokens others : List Token}
    (h : Fills body contents tokens) (hother : Fills body contents others) : tokens = others := by
  induction h generalizing others with
  | nil => exact (fills_nil_iff.1 hother).2.symm
  | terminal token hkind hrest ih =>
    obtain ⟨other, inner, back, -, hback, heq, rfl⟩ := fills_terminal_iff.1 hother
    obtain ⟨rfl, rfl⟩ := Contents.withTerminal_inj heq
    rw [ih hback]
  | @rule name production rest inner contents front back hproduction hinner hrest ihInner ihRest =>
    obtain ⟨node, otherRest, otherFront, otherBack, hnode, hback, heq, rfl⟩ :=
      fills_rule_iff.1 hother
    obtain ⟨rfl, rfl⟩ := Contents.withChild_inj heq
    obtain ⟨otherProduction, hotherProduction, otherInner, hotherInner, hnode⟩ := hnode
    obtain rfl := Contents.toNode_inj hnode
    obtain rfl := NonTerminal.production_eq hproduction hotherProduction
      (hinner.map_kind_terminals.symm.trans hotherInner.map_kind_terminals)
      (hinner.map_tag_children.symm.trans hotherInner.map_tag_children)
    rw [ihInner hotherInner, ihRest hback]

/-- A tree has one list of tokens. -/
theorem Derives.tokens_unique {rule : NonTerminal} {node : Node} {tokens others : List Token}
    (h : Derives rule node tokens) (hother : Derives rule node others) : tokens = others := by
  have hfills := h.fills .nil
  have hotherFills := hother.fills .nil
  have heq := hfills.tokens_unique hotherFills
  rwa [List.append_nil, List.append_nil] at heq

/-! ## Without places -/

/-- The token without its place. -/
def Token.unplaced (token : Token) : Token := ⟨token.kind, .start, token.lexeme⟩

namespace Node

mutual

/-- The tree without the places of its tokens. -/
def unplaced : Node → Node
  | ⟨tag, isEmpty, held, nodes⟩ => ⟨tag, isEmpty, held.map Token.unplaced, unplacedOfAll nodes⟩

def unplacedOfAll : List Node → List Node
  | [] => []
  | node :: nodes => node.unplaced :: unplacedOfAll nodes

end

def Row.unplaced (row : Row) : Row := { row with terminals := row.terminals.map Token.unplaced }

mutual

theorem rowsAt_unplaced (depth : Nat) : ∀ node : Node,
    node.unplaced.rowsAt depth = (node.rowsAt depth).map Row.unplaced
  | ⟨tag, true, held, nodes⟩ => rfl
  | ⟨tag, false, held, nodes⟩ => by
    rw [unplaced, rowsAt, rowsAt, List.map_cons, rowsOfAll_unplaced]
    rfl

theorem rowsOfAll_unplaced (depth : Nat) : ∀ nodes : List Node,
    rowsOfAll depth (unplacedOfAll nodes) = (rowsOfAll depth nodes).map Row.unplaced
  | [] => rfl
  | node :: nodes => by
    rw [unplacedOfAll, rowsOfAll, rowsOfAll, rowsAt_unplaced, rowsOfAll_unplaced, List.map_append]

end

theorem rows_unplaced (node : Node) : node.unplaced.rows = node.rows.map Row.unplaced :=
  rowsAt_unplaced 0 node

end Node

/-- The contents without the places of their tokens. -/
def Parse.Contents.unplaced (contents : Contents) : Contents :=
  ⟨contents.terminals.map Token.unplaced, Node.unplacedOfAll contents.children⟩

theorem Parse.Contents.unplaced_toNode (rule : NonTerminal) (body : List Symbol)
    (contents : Contents) :
    (contents.toNode rule body).unplaced = contents.unplaced.toNode rule body := by
  rw [toNode, Node.unplaced]
  rfl

theorem Fills.unplaced {body : List Symbol} {contents : Contents} {tokens : List Token}
    (h : Fills body contents tokens) :
    Fills body contents.unplaced (tokens.map Token.unplaced) := by
  induction h with
  | nil => exact .nil
  | terminal token hkind _ ih => exact .terminal token.unplaced hkind ih
  | @rule name production _ _ _ _ _ hproduction _ _ ihInner ihRest =>
    have hnode := (ihInner.derives hproduction).fills ihRest
    rw [← Contents.unplaced_toNode, ← List.map_append] at hnode
    exact hnode

theorem Derives.unplaced {rule : NonTerminal} {node : Node} {tokens : List Token}
    (h : Derives rule node tokens) : Derives rule node.unplaced (tokens.map Token.unplaced) := by
  obtain ⟨production, hproduction, contents, hfills, rfl⟩ := h
  rw [Contents.unplaced_toNode]
  exact hfills.unplaced.derives hproduction

/-- Trees whose rows differ in places only differ in places only, and so do their tokens. -/
theorem Derives.unplaced_eq_of_rows {rule : NonTerminal} {node other : Node}
    {tokens others : List Token} (h : Derives rule node tokens) (hother : Derives rule other others)
    (hrows : node.rows.map Node.Row.unplaced = other.rows.map Node.Row.unplaced) :
    node.unplaced = other.unplaced ∧ tokens.map Token.unplaced = others.map Token.unplaced := by
  have hnode : node.unplaced = other.unplaced := by
    apply h.unplaced.isBare.eq_of_rows_eq hother.unplaced.isBare
    rw [Node.rows_unplaced, Node.rows_unplaced, hrows]
  have hunplaced := h.unplaced
  rw [hnode] at hunplaced
  exact ⟨hnode, hunplaced.tokens_unique hother.unplaced⟩

end CExpr
