import CExpr.Proofs.Expr.OfDerivation
import CExpr.Proofs.Expr.WellFormed
import CExpr.Proofs.Operator.Table

/-!
# Precedence and associativity

What the operands of each operation may be when nothing is put in parentheses. Operations are given
heights, the tightest the least, and a rule derives expressions up to the height of the rule. This
bounds the operands of each operation in the expression of a derivation without groups.
-/

namespace CExpr

theorem Tier.level_le (tier : Tier) : tier.level ≤ 9 := by
  cases tier <;> decide

/-- Binary operations lie below conditionals. -/
theorem BinaryOp.height_le (op : BinaryOp) : 3 + op.tier.level ≤ 12 :=
  Nat.add_le_add_left op.tier.level_le 3

namespace Expr

def isAssign : Expr → Bool
  | assign _ _ _ _ => true
  | _ => false

def isConditional : Expr → Bool
  | conditional _ _ _ _ => true
  | _ => false

/-- Fit for a binary operation: neither an assignment nor a conditional, and if it is a binary
operation itself, of a tier with a level below the bound. -/
def IsOperandBelow (bound : Nat) : Expr → Prop
  | assign _ _ _ _ | conditional _ _ _ _ => False
  | binary op _ _ _ => op.tier.level < bound
  | primary _ | suffixed _ _ _ _ _ | unary _ _ _ | declaration => True

/-- Fit for a prefix operator. -/
def isPrefixOperand : Expr → Bool
  | unary _ _ _ | suffixed _ _ _ _ _ | primary _ => true
  | _ => false

/-- Fit for a suffix. -/
def isSuffixOperand : Expr → Bool
  | suffixed _ _ _ _ _ | primary _ => true
  | _ => false

/-- The operands are those that the operation takes without parentheses. Binary operations go to the
left, so the left operand may be of the same tier. -/
def Obeys : Expr → Prop
  | binary op left right _ =>
    left.IsOperandBelow (op.tier.level + 1) ∧ right.IsOperandBelow op.tier.level
  | unary _ operand _ => operand.isPrefixOperand
  | suffixed _ left _ _ _ => left.isSuffixOperand
  | conditional condition _ whenFalse _ =>
    !condition.isConditional ∧ !condition.isAssign ∧ !whenFalse.isAssign
  | assign _ target _ _ => !target.isAssign
  | primary _ | declaration => True

/-- The height of an expression, which is the rung of the tightest rule for it. -/
def height : Expr → Nat
  | primary _ | suffixed _ _ _ _ _ => 0
  | unary _ _ _ => 1
  | binary op _ _ _ => 3 + op.tier.level
  | conditional _ _ _ _ => 13
  | assign _ _ _ _ => 14
  | declaration => 15

theorem isSuffixOperand_iff (expr : Expr) : expr.isSuffixOperand ↔ expr.height ≤ 0 := by
  cases expr <;> simp [isSuffixOperand, height]

theorem isPrefixOperand_iff (expr : Expr) : expr.isPrefixOperand ↔ expr.height ≤ 2 := by
  cases expr <;> simp [isPrefixOperand, height]
  omega

theorem isOperandBelow_iff {bound : Nat} (hbound : bound ≤ 10) {expr : Expr} (h : expr.HasParts) :
    expr.IsOperandBelow bound ↔ expr.height ≤ 2 + bound := by
  cases expr <;> simp only [IsOperandBelow, height, HasParts, true_iff, false_iff] at h ⊢ <;> omega

theorem isCondition_iff {expr : Expr} (h : expr.HasParts) :
    (!expr.isConditional ∧ !expr.isAssign) ↔ expr.height ≤ 12 := by
  cases expr with
  | binary op left right location =>
    simp [isConditional, isAssign, height, op.height_le]
  | declaration => exact h.elim
  | _ => simp [isConditional, isAssign, height]

theorem not_isAssign_iff {expr : Expr} (h : expr.HasParts) :
    !expr.isAssign ↔ expr.height ≤ 13 := by
  cases expr with
  | binary op left right location =>
    have hheight : 3 + op.tier.level ≤ 13 := Nat.le_succ_of_le op.height_le
    simp [isAssign, height, hheight]
  | declaration => exact h.elim
  | _ => simp [isAssign, height]

section

variable {location : Location}

theorem obeys_suffixed_iff {op : SuffixOp} {left : Expr} {member : Option Token}
    {operands : List Expr} : (suffixed op left member operands location).Obeys ↔ left.height ≤ 0 :=
  left.isSuffixOperand_iff

theorem obeys_unary_iff {op : UnaryOp} {operand : Expr} :
    (unary op operand location).Obeys ↔ operand.height ≤ 2 :=
  operand.isPrefixOperand_iff

theorem obeys_binary_iff {op : BinaryOp} {left right : Expr} (hleft : left.HasParts)
    (hright : right.HasParts) :
    (binary op left right location).Obeys ↔
      left.height ≤ 3 + op.tier.level ∧ right.height ≤ 2 + op.tier.level := by
  have hlevel := op.tier.level_le
  have hsum : 2 + (op.tier.level + 1) = 3 + op.tier.level := by omega
  rw [Obeys, isOperandBelow_iff (by omega) hleft, isOperandBelow_iff (by omega) hright, hsum]

theorem obeys_conditional_iff {condition whenTrue whenFalse : Expr}
    (hcondition : condition.HasParts) (hfalse : whenFalse.HasParts) :
    (conditional condition whenTrue whenFalse location).Obeys ↔
      condition.height ≤ 12 ∧ whenFalse.height ≤ 13 := by
  rw [Obeys, ← and_assoc, isCondition_iff hcondition, not_isAssign_iff hfalse]

theorem obeys_assign_iff {op : AssignOp} {target value : Expr} (htarget : target.HasParts) :
    (assign op target value location).Obeys ↔ target.height ≤ 13 :=
  not_isAssign_iff htarget

end

theorem height_le_of_hasParts {expr : Expr} (h : expr.HasParts) : expr.height ≤ 14 := by
  cases expr with
  | binary op left right location =>
    have hheight : 3 + op.tier.level ≤ 14 := Nat.le_trans op.height_le (by decide)
    exact hheight
  | declaration => exact h.elim
  | _ => simp [height]

/-- A well-formed expression within a height, with operands as they stand without parentheses. -/
structure Within (bound : Nat) (expr : Expr) : Prop where
  every : expr.Every fun e ↦ e.HasParts ∧ e.Obeys
  height_le : expr.height ≤ bound

namespace Within

variable {bound : Nat} {expr : Expr} {location : Location}

theorem hasParts (h : expr.Within bound) : expr.HasParts := h.every.here.1

theorem mono {wider : Nat} (hle : bound ≤ wider) (h : expr.Within bound) : expr.Within wider :=
  ⟨h.every, Nat.le_trans h.height_le hle⟩

theorem primary {token : Token}
    (h : token.kind ∈ [Kind.identifier, Kind.constant, Kind.stringLiteral]) :
    (Expr.primary token).Within 0 :=
  ⟨.primary ⟨h, trivial⟩, Nat.le_refl 0⟩

theorem suffixed {op : SuffixOp} {left : Expr} {member : Option Token} {operands : List Expr}
    (hleft : left.Within 0) (htakes : op.Takes member operands)
    (hoperands : ∀ operand ∈ operands, operand.Within 14) :
    (Expr.suffixed op left member operands location).Within 0 := by
  have hobeys : (Expr.suffixed op left member operands location).Obeys :=
    obeys_suffixed_iff.2 hleft.height_le
  exact ⟨.suffixed ⟨htakes, hobeys⟩ hleft.every fun operand hmem ↦ (hoperands operand hmem).every,
    Nat.le_refl 0⟩

theorem unary {op : UnaryOp} {operand : Expr} (h : operand.Within 2) :
    (Expr.unary op operand location).Within 1 :=
  ⟨.unary ⟨trivial, obeys_unary_iff.2 h.height_le⟩ h.every, Nat.le_refl 1⟩

theorem binary {op : BinaryOp} {left right : Expr} (hleft : left.Within (3 + op.tier.level))
    (hright : right.Within (2 + op.tier.level)) :
    (Expr.binary op left right location).Within (3 + op.tier.level) := by
  have hobeys : (Expr.binary op left right location).Obeys :=
    (obeys_binary_iff hleft.hasParts hright.hasParts).2 ⟨hleft.height_le, hright.height_le⟩
  exact ⟨.binary ⟨trivial, hobeys⟩ hleft.every hright.every, Nat.le_refl _⟩

theorem conditional {condition whenTrue whenFalse : Expr} (hcondition : condition.Within 12)
    (htrue : whenTrue.Within 14) (hfalse : whenFalse.Within 13) :
    (Expr.conditional condition whenTrue whenFalse location).Within 13 := by
  have hobeys : (Expr.conditional condition whenTrue whenFalse location).Obeys :=
    (obeys_conditional_iff hcondition.hasParts hfalse.hasParts).2
      ⟨hcondition.height_le, hfalse.height_le⟩
  exact ⟨.conditional ⟨trivial, hobeys⟩ hcondition.every htrue.every hfalse.every, Nat.le_refl 13⟩

theorem assign {op : AssignOp} {target value : Expr} (htarget : target.Within 13)
    (hvalue : value.Within 14) : (Expr.assign op target value location).Within 14 := by
  have hobeys : (Expr.assign op target value location).Obeys :=
    (obeys_assign_iff htarget.hasParts).2 htarget.height_le
  exact ⟨.assign ⟨trivial, hobeys⟩ htarget.every hvalue.every, Nat.le_refl 14⟩

end Within

end Expr

namespace Derivation

/-- The heights of the expressions that a rule derives, a rest taken with what it follows. -/
def Binds : {rule : NonTerminal} → Derivation rule → Prop
  | .primary, derivation | .suffixed, derivation => derivation.expr.Within 0
  | .suffixedRest, rest => ∀ left, left.Within 0 → (rest.after left).Within 0
  | .unary, derivation => derivation.expr.Within 1
  | .cast, derivation => derivation.expr.Within 2
  | .tier t, derivation => derivation.expr.Within (3 + t.level)
  | .tierRest t, rest =>
    ∀ left, left.Within (3 + t.level) → (rest.after left).Within (3 + t.level)
  | .conditional, derivation => derivation.expr.Within 13
  | .conditionalRest, rest => ∀ left, left.Within 12 → (rest.after left).Within 13
  | .assignmentRest, rest => ∀ left, left.Within 13 → (rest.after left).Within 14
  | .argumentList, list | .argumentListRest, list => ∀ expr ∈ list.exprs, expr.Within 14
  | .assignment, derivation | .expression, derivation | .root, derivation =>
    derivation.expr.Within 14

theorem Binds.operand {t : Tier} {operand : Derivation t.operand} (h : operand.Binds) :
    operand.expr.Within (2 + t.level) := by
  cases t <;> exact h

/-- No primary expression of the derivation is in parentheses. -/
def IsPlain {rule : NonTerminal} (derivation : Derivation rule) : Prop :=
  ∀ leaf ∈ derivation.leaves, leaf.groups = false

/-- Without parentheses, the expression of a derivation is within the height of its rule. A rest is
taken with any expression that it may follow, so each link of a chain bounds the next one. -/
theorem IsPlain.binds {rule : NonTerminal} {derivation : Derivation rule}
    (h : derivation.IsPlain) : derivation.Binds := by
  induction derivation with
  | root body stop hstop ih => exact ih (List.forall_mem_append.1 h).1
  | expression body ih => exact ih h
  | assignment target rest ihTarget ihRest =>
    obtain ⟨htarget, hrest⟩ := List.forall_mem_append.1 h
    exact ihRest hrest _ (ihTarget htarget)
  | noAssignment =>
    intro left hleft
    exact hleft.mono (by decide)
  | assign sign op hsign value ih =>
    intro left hleft
    exact .assign hleft (ih (List.forall_mem_cons.1 h).2)
  | conditional condition rest ihCondition ihRest =>
    obtain ⟨hcondition, hrest⟩ := List.forall_mem_append.1 h
    exact ihRest hrest _ (ihCondition hcondition)
  | noChoice =>
    intro left hleft
    exact hleft.mono (by decide)
  | choice question hquestion whenTrue colon hcolon whenFalse ihTrue ihFalse =>
    intro left hleft
    obtain ⟨htrue, hfalse⟩ := List.forall_mem_append.1 (List.forall_mem_cons.1 h).2
    exact .conditional hleft (ihTrue htrue) (ihFalse (List.forall_mem_cons.1 hfalse).2)
  | tier first rest ihFirst ihRest =>
    obtain ⟨hfirst, hrest⟩ := List.forall_mem_append.1 h
    exact ihRest hrest _ ((ihFirst hfirst).operand.mono (by omega))
  | noOperator | noSuffix => exact fun left hleft ↦ hleft
  | operator sign op hsign operand rest ihOperand ihRest =>
    intro left hleft
    obtain ⟨hoperand, hrest⟩ := List.forall_mem_append.1 (List.forall_mem_cons.1 h).2
    have hright := (ihOperand hoperand).operand
    obtain rfl := Tier.tier_of_operator? hsign
    exact ihRest hrest _ (.binary hleft hright)
  | cast body ih => exact (ih h).mono (by decide)
  | prefixed sign op hsign operand ih => exact .unary (ih (List.forall_mem_cons.1 h).2)
  | unprefixed body ih => exact (ih h).mono (by decide)
  | suffixed first rest ihFirst ihRest =>
    obtain ⟨hfirst, hrest⟩ := List.forall_mem_append.1 h
    exact ihRest hrest _ (ihFirst hfirst)
  | step sign op hsign hop rest ih =>
    intro left hleft
    have htakes : op.Takes none [] := by
      rcases SuffixOp.isStep_iff.1 hop with rfl | rfl <;> exact ⟨rfl, rfl⟩
    exact ih (List.forall_mem_cons.1 h).2 _ (.suffixed hleft htakes (by simp))
  | selection sign op hsign hop member hmember rest ih =>
    intro left hleft
    have htakes : op.Takes (some member) [] := by
      rcases SuffixOp.isSelection_iff.1 hop with rfl | rfl <;>
        exact ⟨⟨member, rfl, hmember⟩, rfl⟩
    have hrest := (List.forall_mem_cons.1 (List.forall_mem_cons.1 h).2).2
    exact ih hrest _ (.suffixed hleft htakes (by simp))
  | index opening hopening body closing hclosing rest ihBody ihRest =>
    intro left hleft
    obtain ⟨hbody, hrest⟩ := List.forall_mem_append.1 (List.forall_mem_cons.1 h).2
    have hindex : body.expr.Within 14 := ihBody hbody
    have hoperands : ∀ operand ∈ [body.expr], operand.Within 14 := by simpa using hindex
    exact ihRest (List.forall_mem_cons.1 hrest).2 _
      (.suffixed hleft ⟨rfl, body.expr, rfl⟩ hoperands)
  | call opening hopening list closing hclosing rest ihList ihRest =>
    intro left hleft
    obtain ⟨hlist, hrest⟩ := List.forall_mem_append.1 (List.forall_mem_cons.1 h).2
    exact ihRest (List.forall_mem_cons.1 hrest).2 _ (.suffixed hleft rfl (ihList hlist))
  | noArguments | noArgument => exact List.forall_mem_nil _
  | arguments first rest ihFirst ihRest =>
    obtain ⟨hfirst, hrest⟩ := List.forall_mem_append.1 h
    exact List.forall_mem_cons.2 ⟨ihFirst hfirst, ihRest hrest⟩
  | argument comma hcomma first rest ihFirst ihRest =>
    obtain ⟨hfirst, hrest⟩ := List.forall_mem_append.1 (List.forall_mem_cons.1 h).2
    exact List.forall_mem_cons.2 ⟨ihFirst hfirst, ihRest hrest⟩
  | atom token htoken => exact .primary htoken
  | group opening hopening body closing hclosing ih =>
    exact absurd (List.forall_mem_cons.1 h).1 (by simp)

end Derivation

/-! ## Trees without parentheses -/

/-- The row is not that of a primary expression in parentheses. -/
def Node.Row.IsPlain (row : Node.Row) : Prop :=
  row.tag = .primary → ∀ token ∈ row.terminals, token.kind ≠ .punct '('

instance : DecidablePred Node.Row.IsPlain := fun row ↦
  inferInstanceAs
    (Decidable (row.tag = .primary → ∀ token ∈ row.terminals, token.kind ≠ .punct '('))

/-- No primary expression of the tree is in parentheses. -/
def Node.IsPlain (node : Node) : Prop := ∀ row ∈ node.rows, row.IsPlain

instance : DecidablePred Node.IsPlain := fun node ↦
  inferInstanceAs (Decidable (∀ row ∈ node.rows, row.IsPlain))

/-- Below a node whose rows are plain, all rows are plain. -/
theorem Node.forall_rowsAt_child {node : Node} {depth : Nat}
    (h : ∀ row ∈ node.rowsAt depth, row.IsPlain) {child : Node} (hchild : child ∈ node.children) :
    ∀ row ∈ child.rowsAt (depth + 1), row.IsPlain := by
  intro row hrow
  apply h row
  rw [Node.rowsAt_eq]
  exact List.mem_cons_of_mem _ (List.mem_flatMap.2 ⟨child, hchild, hrow⟩)

namespace Derivation

theorem isPlain_of_rowsAt {rule : NonTerminal} {derivation : Derivation rule} {depth : Nat}
    (h : ∀ row ∈ derivation.toNode.rowsAt depth, row.IsPlain) : derivation.IsPlain := by
  induction derivation generalizing depth with
  | atom token htoken => simp [IsPlain]
  | group opening hopening body closing hclosing ih =>
    have hrow := h ⟨depth, .primary, false, [opening, closing]⟩ (by simp [toNode, Node.rowsAt])
    exact absurd hopening (hrow rfl opening List.mem_cons_self)
  | noAssignment | noChoice | noOperator | noSuffix | noArguments | noArgument => simp [IsPlain]
  | root body stop hstop ih | expression body ih | assign sign op hsign body ih | cast body ih
  | prefixed sign op hsign body ih | unprefixed body ih | step sign op hsign hop body ih
  | selection sign op hsign hop member hmember body ih =>
    have hbody := ih (Node.forall_rowsAt_child h List.mem_cons_self)
    simpa [IsPlain, or_imp, forall_and] using hbody
  | assignment first rest ihFirst ihRest | conditional first rest ihFirst ihRest
  | choice question hquestion first colon hcolon rest ihFirst ihRest
  | tier first rest ihFirst ihRest | operator sign op hsign first rest ihFirst ihRest
  | suffixed first rest ihFirst ihRest
  | index opening hopening first closing hclosing rest ihFirst ihRest
  | call opening hopening first closing hclosing rest ihFirst ihRest
  | arguments first rest ihFirst ihRest | argument comma hcomma first rest ihFirst ihRest =>
    have hfirst := ihFirst (Node.forall_rowsAt_child h List.mem_cons_self)
    have hrest := ihRest (Node.forall_rowsAt_child h (List.mem_cons_of_mem _ List.mem_cons_self))
    simpa [IsPlain, or_imp, forall_and] using And.intro hfirst hrest

end Derivation

end CExpr
