import CExpr.Expr.Basic

/-!
# Well-formed expressions

The type of expressions leaves room for some that mean nothing, such as an index without an operand.
In a well-formed expression every operation has its parts. A legible one may lack some, but nothing
in it is left out or written with its own text. Two expressions that differ in nothing but texts and
places are equal once these are erased.
-/

namespace CExpr

/-- The kinds whose tokens are written as the name of their class. -/
def Kind.classes : List Kind := [identifier, constant, stringLiteral, endOfInput]

/-- The member and the operands that come with a suffix. -/
def SuffixOp.Takes (member : Option Token) (operands : List Expr) : SuffixOp → Prop
  | increment | decrement => member = none ∧ operands = []
  | arrow | dot => (∃ token, member = some token ∧ token.kind = .identifier) ∧ operands = []
  | index => member = none ∧ ∃ operand, operands = [operand]
  | call => member = none

/-- The token without its place and its text. -/
def Token.erase (token : Token) : Token := ⟨token.kind, .start, ""⟩

namespace Expr

theorem sizeOf_lt_of_mem_children {expr child : Expr} (h : child ∈ expr.children) :
    sizeOf child < sizeOf expr := by
  cases expr with
  | primary | declaration => cases h
  | suffixed op left member operands location =>
    rcases List.mem_cons.1 h with rfl | hmem
    · simp only [suffixed.sizeOf_spec]
      omega
    · have hlt := List.sizeOf_lt_of_mem hmem
      simp only [suffixed.sizeOf_spec]
      omega
  | unary op operand location =>
    cases List.mem_singleton.1 h
    simp only [unary.sizeOf_spec]
    omega
  | binary | conditional | assign =>
    simp only [children, List.mem_cons, List.not_mem_nil, or_false] at h
    rcases h with rfl | rfl | rfl <;> simp <;> omega

/-- What passes from the children of an expression to the expression holds of every expression. -/
@[elab_as_elim]
theorem of_children {motive : Expr → Prop}
    (step : ∀ expr : Expr, (∀ child ∈ expr.children, motive child) → motive expr) (expr : Expr) :
    motive expr :=
  step expr fun child hchild ↦
    have := sizeOf_lt_of_mem_children hchild
    of_children step child
termination_by sizeOf expr

/-- The expression and all expressions in it have the property. -/
inductive Every (p : Expr → Prop) : Expr → Prop
  | intro {expr : Expr} (here : p expr) (inside : ∀ child ∈ expr.children, Every p child) :
      Every p expr

namespace Every

variable {p q : Expr → Prop} {expr : Expr}

theorem here (h : expr.Every p) : p expr := by
  cases h with
  | intro here inside => exact here

theorem inside (h : expr.Every p) : ∀ child ∈ expr.children, child.Every p := by
  cases h with
  | intro here inside => exact inside

theorem and (hp : expr.Every p) (hq : expr.Every q) : expr.Every fun e ↦ p e ∧ q e := by
  induction hp with
  | intro here inside ih =>
    exact .intro ⟨here, hq.here⟩ fun child hchild ↦ ih child hchild (hq.inside child hchild)

theorem mono (hpq : ∀ e, p e → q e) (h : expr.Every p) : expr.Every q := by
  induction h with
  | intro here inside ih => exact .intro (hpq _ here) ih

section Build

variable {location : Location}

theorem primary {token : Token} (here : p (.primary token)) : (Expr.primary token).Every p :=
  .intro here (List.forall_mem_nil _)

theorem suffixed {op : SuffixOp} {left : Expr} {member : Option Token} {operands : List Expr}
    (here : p (.suffixed op left member operands location)) (hleft : left.Every p)
    (hoperands : ∀ operand ∈ operands, operand.Every p) :
    (Expr.suffixed op left member operands location).Every p :=
  .intro here (List.forall_mem_cons.2 ⟨hleft, hoperands⟩)

theorem unary {op : UnaryOp} {operand : Expr} (here : p (.unary op operand location))
    (h : operand.Every p) : (Expr.unary op operand location).Every p :=
  .intro here (List.forall_mem_singleton.2 h)

theorem binary {op : BinaryOp} {left right : Expr} (here : p (.binary op left right location))
    (hleft : left.Every p) (hright : right.Every p) :
    (Expr.binary op left right location).Every p := by
  refine .intro here ?_
  simpa [children] using ⟨hleft, hright⟩

theorem conditional {condition whenTrue whenFalse : Expr}
    (here : p (.conditional condition whenTrue whenFalse location))
    (hcondition : condition.Every p) (htrue : whenTrue.Every p) (hfalse : whenFalse.Every p) :
    (Expr.conditional condition whenTrue whenFalse location).Every p := by
  refine .intro here ?_
  simpa [children] using ⟨hcondition, htrue, hfalse⟩

theorem assign {op : AssignOp} {target value : Expr} (here : p (.assign op target value location))
    (htarget : target.Every p) (hvalue : value.Every p) :
    (Expr.assign op target value location).Every p := by
  refine .intro here ?_
  simpa [children] using ⟨htarget, hvalue⟩

end Build

end Every

/-- The operation has the parts that it needs, and no others. -/
def HasParts : Expr → Prop
  | primary token => token.kind ∈ [Kind.identifier, Kind.constant, Kind.stringLiteral]
  | suffixed op _ member operands _ => op.Takes member operands
  | unary _ _ _ | binary _ _ _ _ | conditional _ _ _ _ | assign _ _ _ _ => True
  | declaration => False

def WellFormed (expr : Expr) : Prop := expr.Every HasParts

/-- The tokens of the expression itself are written as classes, and it is not a declaration, which
leaves nothing in what is written. -/
def IsLegible : Expr → Prop
  | primary token => token.kind ∈ Kind.classes
  | suffixed _ _ member _ _ => ∀ token ∈ member, token.kind ∈ Kind.classes
  | unary _ _ _ | binary _ _ _ _ | conditional _ _ _ _ | assign _ _ _ _ => True
  | declaration => False

def Legible (expr : Expr) : Prop := expr.Every IsLegible

namespace WellFormed

variable {location : Location}

theorem suffixed {op : SuffixOp} {left : Expr} {member : Option Token} {operands : List Expr}
    (hleft : left.WellFormed) (htakes : op.Takes member operands)
    (hoperands : ∀ operand ∈ operands, operand.WellFormed) :
    (Expr.suffixed op left member operands location).WellFormed :=
  Every.suffixed htakes hleft hoperands

theorem unary {op : UnaryOp} {operand : Expr} (h : operand.WellFormed) :
    (Expr.unary op operand location).WellFormed :=
  Every.unary trivial h

theorem binary {op : BinaryOp} {left right : Expr} (hleft : left.WellFormed)
    (hright : right.WellFormed) : (Expr.binary op left right location).WellFormed :=
  Every.binary trivial hleft hright

theorem conditional {condition whenTrue whenFalse : Expr} (hcondition : condition.WellFormed)
    (htrue : whenTrue.WellFormed) (hfalse : whenFalse.WellFormed) :
    (Expr.conditional condition whenTrue whenFalse location).WellFormed :=
  Every.conditional trivial hcondition htrue hfalse

theorem assign {op : AssignOp} {target value : Expr} (htarget : target.WellFormed)
    (hvalue : value.WellFormed) : (Expr.assign op target value location).WellFormed :=
  Every.assign trivial htarget hvalue

end WellFormed

mutual

/-- The expression without the texts and places of its tokens. -/
def erase : Expr → Expr
  | primary token => primary token.erase
  | suffixed op left member operands _ =>
    suffixed op left.erase (member.map Token.erase) (eraseAll operands) .start
  | unary op operand _ => unary op operand.erase .start
  | binary op left right _ => binary op left.erase right.erase .start
  | conditional condition whenTrue whenFalse _ =>
    conditional condition.erase whenTrue.erase whenFalse.erase .start
  | assign op target value _ => assign op target.erase value.erase .start
  | declaration => declaration

def eraseAll : List Expr → List Expr
  | [] => []
  | expr :: exprs => expr.erase :: eraseAll exprs

end

end Expr

end CExpr
