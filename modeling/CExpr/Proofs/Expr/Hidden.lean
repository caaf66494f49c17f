import CExpr.Expr.OfTree
import Mathlib.Data.List.Forall2
import Mathlib.Data.Option.Basic

/-!
# Hidden contents

An empty node may have been made with tokens and nodes, but it shows none of them. Two trees that
differ in nothing but what their empty nodes hide have the same rows and the same outline, and
building them comes to the same expression or to the same error.
-/

namespace CExpr

namespace Node

/-- The nodes differ at most in what empty nodes hide, at whatever depth. -/
inductive Alike : Node → Node → Prop
  | empty (tag : NonTerminal) (held otherHeld : List Token) (nodes otherNodes : List Node) :
      Alike ⟨tag, true, held, nodes⟩ ⟨tag, true, otherHeld, otherNodes⟩
  | full (tag : NonTerminal) (held : List Token) {nodes otherNodes : List Node}
      (hnodes : List.Forall₂ Alike nodes otherNodes) :
      Alike ⟨tag, false, held, nodes⟩ ⟨tag, false, held, otherNodes⟩

namespace Alike

variable {node other : Node}

/-! ## What nodes show -/

theorem tag_eq (h : node.Alike other) : node.tag = other.tag := by
  cases h <;> rfl

theorem isEmpty_eq (h : node.Alike other) : node.isEmpty = other.isEmpty := by
  cases h <;> rfl

theorem terminals_eq (h : node.Alike other) : node.terminals = other.terminals := by
  cases h <;> rfl

theorem forall₂_children (h : node.Alike other) :
    List.Forall₂ Alike node.children other.children := by
  cases h with
  | empty => exact .nil
  | full _ _ hnodes => exact hnodes

theorem terminal_eq (h : node.Alike other) (index : Nat) :
    node.terminal index = other.terminal index := by
  unfold terminal
  rw [h.terminals_eq, h.tag_eq]

theorem meaning_eq {α : Type} (h : node.Alike other) (token : Token) (meaning? : Kind → Option α) :
    node.meaning token meaning? = other.meaning token meaning? := by
  unfold meaning
  rw [h.tag_eq]

/-- At every index there is a child on both sides, or on neither. -/
theorem rel_children (h : node.Alike other) (index : Nat) :
    Option.Rel Alike node.children[index]? other.children[index]? := by
  have hchildren := h.forall₂_children
  generalize node.children = children, other.children = otherChildren at hchildren
  induction hchildren generalizing index with
  | nil => exact .none
  | cons hhead _ ih =>
    cases index with
    | zero => exact .some hhead
    | succ index => exact ih index

section Bind

variable {α : Type} {index : Nat} {go : node.Below → Except TreeError α}
  {goOther : other.Below → Except TreeError α}

/-- What goes on from a child goes on in the same way when it does so from all that are alike. -/
theorem bind_child (h : node.Alike other)
    (hgo : ∀ child otherChild, Alike child.val otherChild.val → go child = goOther otherChild) :
    node.child index >>= go = other.child index >>= goOther := by
  have hrel := h.rel_children index
  generalize hfound : node.children[index]? = found at hrel
  generalize hother : other.children[index]? = otherFound at hrel
  cases hrel with
  | none => rw [child_eq_error hfound, child_eq_error hother, h.tag_eq]; rfl
  | some hchild =>
    rw [child_eq_ok hfound, child_eq_ok hother]
    exact hgo _ _ hchild

theorem bind_childTagged {expected : NonTerminal} (h : node.Alike other)
    (hgo : ∀ child otherChild, Alike child.val otherChild.val → go child = goOther otherChild) :
    node.childTagged index expected >>= go = other.childTagged index expected >>= goOther := by
  unfold childTagged
  rw [bind_assoc, bind_assoc]
  refine h.bind_child fun child otherChild hchild ↦ ?_
  rw [hchild.tag_eq]
  split
  · exact hgo child otherChild hchild
  · rfl

end Bind

/-! ## Outlines -/

mutual

theorem rowsAt_eq {node other : Node} (depth : Nat) :
    node.Alike other → node.rowsAt depth = other.rowsAt depth
  | .empty .. => rfl
  | .full _ _ hnodes => by rw [rowsAt, rowsAt, rowsOfAll_eq _ hnodes]

theorem rowsOfAll_eq {nodes others : List Node} (depth : Nat) :
    List.Forall₂ Alike nodes others → rowsOfAll depth nodes = rowsOfAll depth others
  | .nil => rfl
  | .cons hnode hnodes => by rw [rowsOfAll, rowsOfAll, rowsAt_eq _ hnode, rowsOfAll_eq _ hnodes]

end

end Alike

/-- Building the two nodes comes to the same, whatever stands before them. -/
structure BuildsAs (node other : Node) : Prop where
  ofNode : Expr.ofNode node = Expr.ofNode other
  foldTier : ∀ tier left, Expr.foldTier tier left node = Expr.foldTier tier left other
  foldSuffixes : ∀ left, Expr.foldSuffixes left node = Expr.foldSuffixes left other
  arguments : Expr.furtherArguments node = Expr.furtherArguments other

section Smaller

variable {node other : Node} (h : node.Alike other)
  (ih : ∀ child otherChild, sizeOf child < sizeOf node → Alike child otherChild →
    BuildsAs child otherChild)
include h ih

theorem Alike.ofNode_eq : Expr.ofNode node = Expr.ofNode other := by
  unfold Expr.ofNode
  rw [← h.tag_eq]
  cases htag : node.tag with
  | expression | cast =>
    exact h.bind_child fun inner otherInner hinner ↦ (ih _ _ inner.2 hinner).ofNode
  | assignment =>
    refine h.bind_childTagged fun left otherLeft hleft ↦ ?_
    simp only [(ih _ _ left.2 hleft).ofNode]
    refine bind_congr fun target ↦ h.bind_childTagged fun rest otherRest hrest ↦ ?_
    simp only [hrest.isEmpty_eq, hrest.terminal_eq, hrest.meaning_eq]
    split
    · rfl
    refine bind_congr fun sign ↦ bind_congr fun op ↦
      hrest.bind_childTagged fun right otherRight hright ↦ ?_
    simp only [(ih _ _ (Nat.lt_trans right.2 rest.2) hright).ofNode]
  | conditional =>
    refine h.bind_childTagged fun first otherFirst hfirst ↦ ?_
    simp only [(ih _ _ first.2 hfirst).ofNode]
    refine bind_congr fun condition ↦ h.bind_childTagged fun rest otherRest hrest ↦ ?_
    simp only [hrest.isEmpty_eq, hrest.terminal_eq]
    split
    · rfl
    refine bind_congr fun question ↦ hrest.bind_childTagged fun second otherSecond hsecond ↦ ?_
    simp only [(ih _ _ (Nat.lt_trans second.2 rest.2) hsecond).ofNode]
    refine bind_congr fun whenTrue ↦ hrest.bind_childTagged fun third otherThird hthird ↦ ?_
    simp only [(ih _ _ (Nat.lt_trans third.2 rest.2) hthird).ofNode]
  | tier t =>
    refine h.bind_child fun first otherFirst hfirst ↦ ?_
    simp only [(ih _ _ first.2 hfirst).ofNode]
    exact bind_congr fun left ↦ h.bind_childTagged fun rest otherRest hrest ↦
      (ih _ _ rest.2 hrest).foldTier t left
  | unary =>
    simp only [h.terminals_eq, h.meaning_eq]
    split
    · exact h.bind_childTagged fun inner otherInner hinner ↦ (ih _ _ inner.2 hinner).ofNode
    next sign _ =>
      refine bind_congr fun op ↦ h.bind_childTagged fun inner otherInner hinner ↦ ?_
      simp only [(ih _ _ inner.2 hinner).ofNode]
  | suffixed =>
    refine h.bind_childTagged fun first otherFirst hfirst ↦ ?_
    simp only [(ih _ _ first.2 hfirst).ofNode]
    exact bind_congr fun left ↦ h.bind_childTagged fun rest otherRest hrest ↦
      (ih _ _ rest.2 hrest).foldSuffixes left
  | primary =>
    simp only [h.terminal_eq]
    refine bind_congr fun token ↦ ?_
    split
    · rfl
    · rfl
    · rfl
    · exact h.bind_childTagged fun inner otherInner hinner ↦ (ih _ _ inner.2 hinner).ofNode
    · rfl
  | root | assignmentRest | conditionalRest | tierRest | suffixedRest | argumentList
  | argumentListRest => rfl

theorem Alike.foldTier_eq (tier : Tier) (left : Expr) :
    Expr.foldTier tier left node = Expr.foldTier tier left other := by
  unfold Expr.foldTier
  simp only [h.isEmpty_eq, h.terminal_eq, h.meaning_eq]
  split
  · rfl
  refine bind_congr fun sign ↦ bind_congr fun op ↦
    h.bind_child fun operand otherOperand hoperand ↦ ?_
  simp only [(ih _ _ operand.2 hoperand).ofNode]
  exact bind_congr fun right ↦ h.bind_childTagged fun next otherNext hnext ↦
    (ih _ _ next.2 hnext).foldTier _ _

theorem Alike.foldSuffixes_eq (left : Expr) :
    Expr.foldSuffixes left node = Expr.foldSuffixes left other := by
  unfold Expr.foldSuffixes
  simp only [h.isEmpty_eq, h.terminal_eq, h.meaning_eq]
  split
  · rfl
  refine bind_congr fun sign ↦ bind_congr fun op ↦ ?_
  have hnext : ∀ index left, (node.childTagged index .suffixedRest >>= fun next ↦
      Expr.foldSuffixes left next.val) =
        other.childTagged index .suffixedRest >>= fun next ↦ Expr.foldSuffixes left next.val :=
    fun index left ↦ h.bind_childTagged fun next otherNext hnext ↦
      (ih _ _ next.2 hnext).foldSuffixes left
  cases op with
  | increment | decrement => exact hnext 0 _
  | arrow | dot => exact bind_congr fun member ↦ hnext 0 _
  | index =>
    refine h.bind_childTagged fun inner otherInner hinner ↦ ?_
    simp only [(ih _ _ inner.2 hinner).ofNode]
    exact bind_congr fun index ↦ hnext 1 _
  | call =>
    refine h.bind_childTagged fun list otherList hlist ↦ ?_
    simp only [Expr.argumentsOf_eq_furtherArguments, (ih _ _ list.2 hlist).arguments]
    exact bind_congr fun arguments ↦ hnext 1 _

theorem Alike.furtherArguments_eq : Expr.furtherArguments node = Expr.furtherArguments other := by
  unfold Expr.furtherArguments
  simp only [h.isEmpty_eq]
  split
  · rfl
  refine h.bind_childTagged fun first otherFirst hfirst ↦ ?_
  simp only [(ih _ _ first.2 hfirst).ofNode]
  refine bind_congr fun argument ↦ h.bind_childTagged fun next otherNext hnext ↦ ?_
  simp only [(ih _ _ next.2 hnext).arguments]

end Smaller

/-- Nothing is asked of the nodes but that they are alike. -/
theorem Alike.buildsAs {node other : Node} (h : node.Alike other) : BuildsAs node other :=
  have ih : ∀ child otherChild, sizeOf child < sizeOf node → Alike child otherChild →
      BuildsAs child otherChild := fun _ _ _ hchild ↦ hchild.buildsAs
  ⟨h.ofNode_eq ih, h.foldTier_eq ih, h.foldSuffixes_eq ih, h.furtherArguments_eq ih⟩
termination_by sizeOf node
decreasing_by assumption

theorem Alike.ofTree_eq {root other : Node} (h : root.Alike other) :
    Expr.ofTree root = Expr.ofTree other := by
  unfold Expr.ofTree
  rw [h.tag_eq]
  split
  · exact h.bind_childTagged fun inner otherInner hinner ↦ hinner.buildsAs.ofNode
  · rfl

/-- What empty nodes hide is in no row and in no line, and no expression or error depends on it. -/
theorem same_outcomes_of_alike {node other : Node} (h : node.Alike other) :
    node.outline = other.outline ∧ node.rows = other.rows ∧
      Expr.ofTree node = Expr.ofTree other := by
  have hrows : node.rows = other.rows := h.rowsAt_eq 0
  refine ⟨?_, hrows, h.ofTree_eq⟩
  rw [outline, outline, hrows]

/-- The tree of a name, with a rest that is empty but holds what it is given. -/
def hidingTree (held : List Token) (nodes : List Node) : Node :=
  let name : Node := ⟨.primary, false, [⟨.identifier, .start, "a"⟩], []⟩
  let sum : Node := ⟨.tier .additive, false, [], [name, ⟨.tierRest .additive, true, held, nodes⟩]⟩
  ⟨.root, false, [], [⟨.expression, false, [], [sum]⟩]⟩

theorem alike_hidingTree (held otherHeld : List Token) (nodes otherNodes : List Node) :
    Alike (hidingTree held nodes) (hidingTree otherHeld otherNodes) := by
  have hrest := Alike.empty (.tierRest .additive) held otherHeld nodes otherNodes
  refine .full _ _ (.cons (.full _ _ (.cons (.full _ _ (.cons ?_ (.cons hrest .nil))) .nil)) .nil)
  exact .full _ _ .nil

/-- A tree with hidden contents and another one without them. -/
theorem same_outcomes_of_hidingTree :
    let bare := hidingTree [] []
    let stuffed := hidingTree [⟨.punct '+', .start, "+"⟩] [bare]
    bare ≠ stuffed ∧ bare.outline = stuffed.outline ∧ bare.rows = stuffed.rows ∧
      Expr.ofTree bare = Expr.ofTree stuffed := by
  refine ⟨?_, same_outcomes_of_alike (alike_hidingTree _ _ _ _)⟩
  simp [hidingTree]

end Node

end CExpr
