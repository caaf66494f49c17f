import CExpr.Grammar.Node

/-!
# Trees of no expression

What is wrong with a tree that stands for no expression. A parse never gives such a tree, so each of
these errors is one of the program and not of its input.
-/

namespace CExpr

inductive TreeError
  | notRoot (tag : NonTerminal)
  | noExpression (tag : NonTerminal)
  | wrongTag (tag expected : NonTerminal)
  | missingChild (tag : NonTerminal)
  | missingTerminal (tag : NonTerminal)
  | unexpectedToken (tag : NonTerminal) (lexeme : String)
  deriving DecidableEq, Repr

namespace TreeError

def detail : TreeError → String
  | notRoot tag => "expected a root parse node, found " ++ tag.name
  | noExpression tag => "no AST construction for " ++ tag.name ++ " parse node"
  | wrongTag tag expected =>
    tag.name ++ " parse node found where " ++ expected.name ++ " was required"
  | missingChild tag => tag.name ++ " parse node is missing its child node"
  | missingTerminal tag => tag.name ++ " parse node is missing its terminal token"
  | unexpectedToken tag lexeme =>
    "unexpected token '" ++ lexeme ++ "' in " ++ tag.name ++ " parse node"

def message (error : TreeError) : String := "internal error: " ++ error.detail

end TreeError

/-! ## Parts of a node that must be there -/

namespace Node

/-- A node below another one. -/
abbrev Below (node : Node) := { child : Node // sizeOf child < sizeOf node }

theorem sizeOf_lt_of_getElem? {node child : Node} {index : Nat}
    (h : node.children[index]? = some child) : sizeOf child < sizeOf node := by
  obtain ⟨tag, isEmpty, held, nodes⟩ := node
  cases isEmpty with
  | true => simp at h
  | false =>
    rw [children_full] at h
    have := List.sizeOf_lt_of_mem (List.mem_of_getElem? h)
    simp only [Node.mk.sizeOf_spec]
    omega

/-- The child at an index. -/
def child (node : Node) (index : Nat) : Except TreeError node.Below :=
  match h : node.children[index]? with
  | some child => .ok ⟨child, sizeOf_lt_of_getElem? h⟩
  | none => .error (.missingChild node.tag)

theorem child_eq_ok {node child : Node} {index : Nat} (h : node.children[index]? = some child) :
    node.child index = .ok ⟨child, sizeOf_lt_of_getElem? h⟩ := by
  unfold Node.child
  split
  next found hfound =>
    obtain rfl : child = found := by simpa [h] using hfound
    rfl
  next hnone => simp [h] at hnone

theorem child_eq_error {node : Node} {index : Nat} (h : node.children[index]? = none) :
    node.child index = .error (.missingChild node.tag) := by
  unfold Node.child
  split
  next found hfound => simp [h] at hfound
  next => rfl

/-- The child at an index, which must be of one rule. -/
def childTagged (node : Node) (index : Nat) (expected : NonTerminal) :
    Except TreeError node.Below := do
  let child ← node.child index
  if child.val.tag = expected then .ok child else .error (.wrongTag child.val.tag expected)

theorem childTagged_eq_ok {node child : Node} {index : Nat} {expected : NonTerminal}
    (h : node.children[index]? = some child) (htag : child.tag = expected) :
    node.childTagged index expected = .ok ⟨child, sizeOf_lt_of_getElem? h⟩ := by
  simp [childTagged, child_eq_ok h, bind, Except.bind, htag]

/-- The token at an index. -/
def terminal (node : Node) (index : Nat) : Except TreeError Token :=
  match node.terminals[index]? with
  | some token => .ok token
  | none => .error (.missingTerminal node.tag)

/-- What a token of the node stands for, if it stands for anything. -/
def meaning {α : Type} (node : Node) (token : Token) (meaning? : Kind → Option α) :
    Except TreeError α :=
  match meaning? token.kind with
  | some value => .ok value
  | none => .error (.unexpectedToken node.tag token.lexeme)

end Node

end CExpr
