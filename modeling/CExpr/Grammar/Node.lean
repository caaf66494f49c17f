import CExpr.Grammar.NonTerminal
import CExpr.Text.Pad
import CExpr.Token.Basic

/-!
# Parse trees

A node is one application of a rule: the tokens and the nodes of its body, each in order. A node
flagged as empty stands for a body without symbols. It shows nothing, even if it was made with
contents, so everything here and elsewhere looks at a node through `terminals` and `children`.
-/

namespace CExpr

structure Node where
  tag : NonTerminal
  isEmpty : Bool
  heldTerminals : List Token
  heldChildren : List Node

namespace Node

/-- The tokens that the node shows. -/
def terminals (node : Node) : List Token := if node.isEmpty then [] else node.heldTerminals

/-- The nodes that the node shows. -/
def children (node : Node) : List Node := if node.isEmpty then [] else node.heldChildren

@[simp] theorem terminals_full (tag : NonTerminal) (held : List Token) (nodes : List Node) :
    terminals ⟨tag, false, held, nodes⟩ = held := rfl

@[simp] theorem terminals_empty (tag : NonTerminal) (held : List Token) (nodes : List Node) :
    terminals ⟨tag, true, held, nodes⟩ = [] := rfl

@[simp] theorem children_full (tag : NonTerminal) (held : List Token) (nodes : List Node) :
    children ⟨tag, false, held, nodes⟩ = nodes := rfl

@[simp] theorem children_empty (tag : NonTerminal) (held : List Token) (nodes : List Node) :
    children ⟨tag, true, held, nodes⟩ = [] := rfl

/-! ## Rows -/

/-- What a node shows of itself, with the number of nodes above it. -/
structure Row where
  depth : Nat
  tag : NonTerminal
  isEmpty : Bool
  terminals : List Token
  deriving DecidableEq, Repr

mutual

/-- The rows of a node and of all nodes below it, from the top and from left to right. -/
def rowsAt (depth : Nat) : Node → List Row
  | ⟨tag, true, _, _⟩ => [⟨depth, tag, true, []⟩]
  | ⟨tag, false, held, nodes⟩ => ⟨depth, tag, false, held⟩ :: rowsOfAll (depth + 1) nodes

def rowsOfAll (depth : Nat) : List Node → List Row
  | [] => []
  | node :: nodes => rowsAt depth node ++ rowsOfAll depth nodes

end

def rows (node : Node) : List Row := node.rowsAt 0

theorem rowsOfAll_eq_flatMap (depth : Nat) (nodes : List Node) :
    rowsOfAll depth nodes = nodes.flatMap (rowsAt depth) := by
  induction nodes with
  | nil => rfl
  | cons node nodes ih => rw [rowsOfAll, ih, List.flatMap_cons]

/-- Only what a node shows is in its rows. -/
theorem rowsAt_eq (depth : Nat) (node : Node) :
    node.rowsAt depth =
      ⟨depth, node.tag, node.isEmpty, node.terminals⟩ ::
        node.children.flatMap (rowsAt (depth + 1)) := by
  obtain ⟨tag, isEmpty, held, nodes⟩ := node
  cases isEmpty <;> simp [rowsAt, rowsOfAll_eq_flatMap]

/-- The line of a row: two spaces for every node above it, the name of the rule, and the texts of
the tokens in brackets. -/
def Row.line (row : Row) : String :=
  Text.spaces (2 * row.depth) ++ row.tag.name ++
    (if row.isEmpty then " (empty)"
      else if row.terminals.isEmpty then ""
      else " [" ++ " ".intercalate (row.terminals.map Token.lexeme) ++ "]") ++ "\n"

/-- The tree as text, a line for every row. -/
def outline (node : Node) : String := String.join (node.rows.map Row.line)

end Node

end CExpr
