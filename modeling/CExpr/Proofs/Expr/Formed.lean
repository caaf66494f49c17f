import CExpr.Expr.OfTree
import CExpr.Proofs.Expr.WellFormed

/-!
# The form of what is built

A tree that no parse made may hold any rules, tokens and nodes anywhere. If an expression is built
from it all the same, the expression has its form: names, constants and string literals as its
leaves, suffixes with the parts that belong to them, and no declaration. Only the member of a
selection may be any token, as no one looks at its kind.
-/

namespace CExpr

/-- The member and the operands that belong to a suffix, whatever token the member is. -/
def SuffixOp.Carries (member : Option Token) (operands : List Expr) : SuffixOp → Prop
  | increment | decrement => member = none ∧ operands = []
  | arrow | dot => member.isSome = true ∧ operands = []
  | index => member = none ∧ ∃ operand, operands = [operand]
  | call => member = none

namespace Expr

/-- The operation has the parts that belong to it, and a leaf is a token of one of the classes. -/
def HasForm : Expr → Prop
  | primary token => token.kind ∈ [Kind.identifier, Kind.constant, Kind.stringLiteral]
  | suffixed op _ member operands _ => op.Carries member operands
  | unary _ _ _ | binary _ _ _ _ | conditional _ _ _ _ | assign _ _ _ _ => True
  | declaration => False

end Expr

/-- What goes well after a first step went well at that step. -/
theorem exists_of_bind_eq_ok {ε α β : Type} {first : Except ε α} {next : α → Except ε β}
    {result : β} (h : first >>= next = .ok result) :
    ∃ value, first = .ok value ∧ next value = .ok result := by
  cases first with
  | error error => cases h
  | ok value => exact ⟨value, rfl, h⟩

open CExpr.Expr (HasForm)

namespace Node

/-- All that is built from the node has its form: an expression of its own, one that goes on from an
expression before the node, and arguments. -/
structure GivesForm (node : Node) : Prop where
  ofNode : ∀ {expr}, Expr.ofNode node = .ok expr → expr.Every HasForm
  foldTier : ∀ {tier left expr}, left.Every HasForm →
    Expr.foldTier tier left node = .ok expr → expr.Every HasForm
  foldSuffixes : ∀ {left expr}, left.Every HasForm →
    Expr.foldSuffixes left node = .ok expr → expr.Every HasForm
  arguments : ∀ {exprs}, Expr.furtherArguments node = .ok exprs →
    ∀ expr ∈ exprs, expr.Every HasForm

section Smaller

variable {node : Node} {left expr : Expr}
  (ih : ∀ child : Node, sizeOf child < sizeOf node → child.GivesForm)
include ih

theorem hasForm_of_ofNode (h : Expr.ofNode node = .ok expr) : expr.Every HasForm := by
  unfold Expr.ofNode at h
  cases htag : node.tag with
  | expression | cast =>
    simp only [htag] at h
    obtain ⟨inner, -, h⟩ := exists_of_bind_eq_ok h
    exact (ih _ inner.2).ofNode h
  | assignment =>
    simp only [htag] at h
    obtain ⟨first, -, h⟩ := exists_of_bind_eq_ok h
    obtain ⟨target, htarget, h⟩ := exists_of_bind_eq_ok h
    obtain ⟨rest, -, h⟩ := exists_of_bind_eq_ok h
    have htarget := (ih _ first.2).ofNode htarget
    split at h
    · cases h
      exact htarget
    obtain ⟨sign, -, h⟩ := exists_of_bind_eq_ok h
    obtain ⟨op, -, h⟩ := exists_of_bind_eq_ok h
    obtain ⟨right, -, h⟩ := exists_of_bind_eq_ok h
    obtain ⟨value, hvalue, h⟩ := exists_of_bind_eq_ok h
    cases h
    exact .assign trivial htarget ((ih _ (Nat.lt_trans right.2 rest.2)).ofNode hvalue)
  | conditional =>
    simp only [htag] at h
    obtain ⟨first, -, h⟩ := exists_of_bind_eq_ok h
    obtain ⟨condition, hcondition, h⟩ := exists_of_bind_eq_ok h
    obtain ⟨rest, -, h⟩ := exists_of_bind_eq_ok h
    have hcondition := (ih _ first.2).ofNode hcondition
    split at h
    · cases h
      exact hcondition
    obtain ⟨question, -, h⟩ := exists_of_bind_eq_ok h
    obtain ⟨second, -, h⟩ := exists_of_bind_eq_ok h
    obtain ⟨whenTrue, htrue, h⟩ := exists_of_bind_eq_ok h
    obtain ⟨third, -, h⟩ := exists_of_bind_eq_ok h
    obtain ⟨whenFalse, hfalse, h⟩ := exists_of_bind_eq_ok h
    cases h
    exact .conditional trivial hcondition ((ih _ (Nat.lt_trans second.2 rest.2)).ofNode htrue)
      ((ih _ (Nat.lt_trans third.2 rest.2)).ofNode hfalse)
  | tier t =>
    simp only [htag] at h
    obtain ⟨first, -, h⟩ := exists_of_bind_eq_ok h
    obtain ⟨left, hleft, h⟩ := exists_of_bind_eq_ok h
    obtain ⟨rest, -, h⟩ := exists_of_bind_eq_ok h
    exact (ih _ rest.2).foldTier ((ih _ first.2).ofNode hleft) h
  | unary =>
    simp only [htag] at h
    split at h
    · obtain ⟨inner, -, h⟩ := exists_of_bind_eq_ok h
      exact (ih _ inner.2).ofNode h
    · obtain ⟨op, -, h⟩ := exists_of_bind_eq_ok h
      obtain ⟨inner, -, h⟩ := exists_of_bind_eq_ok h
      obtain ⟨operand, hoperand, h⟩ := exists_of_bind_eq_ok h
      cases h
      exact .unary trivial ((ih _ inner.2).ofNode hoperand)
  | suffixed =>
    simp only [htag] at h
    obtain ⟨first, -, h⟩ := exists_of_bind_eq_ok h
    obtain ⟨left, hleft, h⟩ := exists_of_bind_eq_ok h
    obtain ⟨rest, -, h⟩ := exists_of_bind_eq_ok h
    exact (ih _ rest.2).foldSuffixes ((ih _ first.2).ofNode hleft) h
  | primary =>
    simp only [htag] at h
    obtain ⟨token, -, h⟩ := exists_of_bind_eq_ok h
    split at h
    case h_1 hkind | h_2 hkind | h_3 hkind =>
      cases h
      exact .primary (show token.kind ∈ _ by simp [hkind])
    · obtain ⟨inner, -, h⟩ := exists_of_bind_eq_ok h
      exact (ih _ inner.2).ofNode h
    · cases h
  | root | assignmentRest | conditionalRest | tierRest | suffixedRest | argumentList
  | argumentListRest =>
    simp only [htag] at h
    cases h

theorem hasForm_of_foldTier {tier : Tier} (hleft : left.Every HasForm)
    (h : Expr.foldTier tier left node = .ok expr) : expr.Every HasForm := by
  unfold Expr.foldTier at h
  split at h
  · cases h
    exact hleft
  obtain ⟨sign, -, h⟩ := exists_of_bind_eq_ok h
  obtain ⟨op, -, h⟩ := exists_of_bind_eq_ok h
  obtain ⟨operand, -, h⟩ := exists_of_bind_eq_ok h
  obtain ⟨right, hright, h⟩ := exists_of_bind_eq_ok h
  obtain ⟨next, -, h⟩ := exists_of_bind_eq_ok h
  exact (ih _ next.2).foldTier (.binary trivial hleft ((ih _ operand.2).ofNode hright)) h

/-- Every suffix gets what belongs to it before the next one applies. -/
theorem hasForm_of_foldSuffixes (hleft : left.Every HasForm)
    (h : Expr.foldSuffixes left node = .ok expr) : expr.Every HasForm := by
  unfold Expr.foldSuffixes at h
  split at h
  · cases h
    exact hleft
  obtain ⟨sign, -, h⟩ := exists_of_bind_eq_ok h
  obtain ⟨op, -, h⟩ := exists_of_bind_eq_ok h
  have hgrown : ∀ member operands, op.Carries member operands →
      (∀ operand ∈ operands, operand.Every HasForm) →
        (Expr.suffixed op left member operands sign.location).Every HasForm :=
    fun _ _ hcarries hoperands ↦ .suffixed hcarries hleft hoperands
  cases op with
  | increment | decrement =>
    obtain ⟨next, -, h⟩ := exists_of_bind_eq_ok h
    exact (ih _ next.2).foldSuffixes (hgrown none [] ⟨rfl, rfl⟩ (List.forall_mem_nil _)) h
  | arrow | dot =>
    obtain ⟨member, -, h⟩ := exists_of_bind_eq_ok h
    obtain ⟨next, -, h⟩ := exists_of_bind_eq_ok h
    exact (ih _ next.2).foldSuffixes
      (hgrown (some member) [] ⟨rfl, rfl⟩ (List.forall_mem_nil _)) h
  | index =>
    obtain ⟨inner, -, h⟩ := exists_of_bind_eq_ok h
    obtain ⟨index, hindex, h⟩ := exists_of_bind_eq_ok h
    obtain ⟨next, -, h⟩ := exists_of_bind_eq_ok h
    have hoperands := List.forall_mem_singleton.2 ((ih _ inner.2).ofNode hindex)
    exact (ih _ next.2).foldSuffixes (hgrown none [index] ⟨rfl, index, rfl⟩ hoperands) h
  | call =>
    obtain ⟨list, -, h⟩ := exists_of_bind_eq_ok h
    obtain ⟨arguments, harguments, h⟩ := exists_of_bind_eq_ok h
    obtain ⟨next, -, h⟩ := exists_of_bind_eq_ok h
    rw [Expr.argumentsOf_eq_furtherArguments] at harguments
    have hoperands := (ih _ list.2).arguments harguments
    exact (ih _ next.2).foldSuffixes (hgrown none arguments rfl hoperands) h

theorem hasForm_of_furtherArguments {exprs : List Expr}
    (h : Expr.furtherArguments node = .ok exprs) : ∀ expr ∈ exprs, expr.Every HasForm := by
  unfold Expr.furtherArguments at h
  split at h
  · cases h
    exact List.forall_mem_nil _
  obtain ⟨first, -, h⟩ := exists_of_bind_eq_ok h
  obtain ⟨argument, hargument, h⟩ := exists_of_bind_eq_ok h
  obtain ⟨next, -, h⟩ := exists_of_bind_eq_ok h
  obtain ⟨arguments, harguments, h⟩ := exists_of_bind_eq_ok h
  cases h
  exact List.forall_mem_cons.2
    ⟨(ih _ first.2).ofNode hargument, (ih _ next.2).arguments harguments⟩

end Smaller

/-- Nothing is asked of the node. -/
theorem givesForm (node : Node) : node.GivesForm :=
  have ih : ∀ child : Node, sizeOf child < sizeOf node → child.GivesForm :=
    fun child _ ↦ child.givesForm
  ⟨hasForm_of_ofNode ih, hasForm_of_foldTier ih, hasForm_of_foldSuffixes ih,
    hasForm_of_furtherArguments ih⟩
termination_by sizeOf node

end Node

/-- Whatever the tree is, an expression that is built from it has its form throughout. -/
theorem hasForm_of_ofTree_eq_ok {root : Node} {expr : Expr} (h : Expr.ofTree root = .ok expr) :
    expr.Every HasForm := by
  unfold Expr.ofTree at h
  split at h
  · obtain ⟨inner, -, h⟩ := exists_of_bind_eq_ok h
    exact inner.val.givesForm.ofNode h
  · cases h

/-- A tree that no parse makes: a member that is a sign, an empty list of arguments that hides one,
and nodes that nothing asks for. -/
def oddTree : Node :=
  let name : Token := ⟨.identifier, .start, "a"⟩
  let leaf : Node := ⟨.primary, false, [name], []⟩
  let call : Node :=
    ⟨.suffixedRest, false, [⟨.punct '(', .start, "("⟩],
      [⟨.argumentList, true, [name], [leaf]⟩, ⟨.suffixedRest, true, [], [leaf]⟩, leaf]⟩
  let selection : Node :=
    ⟨.suffixedRest, false, [⟨.compound .arrow, .start, "->"⟩, ⟨.punct '+', .start, "+"⟩], [call]⟩
  let body : Node := ⟨.suffixed, false, [], [leaf, selection]⟩
  ⟨.root, false, [], [⟨.expression, false, [name], [body, leaf]⟩]⟩

def oddExpr : Expr :=
  .suffixed .call
    (.suffixed .arrow (.primary ⟨.identifier, .start, "a"⟩) (some ⟨.punct '+', .start, "+"⟩) []
      .start)
    none [] .start

theorem hasForm_oddExpr : Expr.ofTree oddTree = .ok oddExpr ∧ oddExpr.Every HasForm := by
  have harrow : SuffixOp.ofKind? (.compound .arrow) = some .arrow := rfl
  have hcall : SuffixOp.ofKind? (.punct '(') = some .call := rfl
  have h : Expr.ofTree oddTree = .ok oddExpr := by
    simp [oddTree, oddExpr, Expr.ofTree, Expr.ofNode, Expr.foldSuffixes, Expr.argumentsOf,
      Node.child_eq_ok, Node.childTagged_eq_ok, Node.terminal, Node.meaning, harrow, hcall, bind,
      Except.bind]
  exact ⟨h, hasForm_of_ofTree_eq_ok h⟩

end CExpr
