import CExpr.Proofs.Expr.Precedence
import CExpr.Proofs.Expr.Written
import CExpr.Proofs.Grammar.Rung

/-!
# One expression for each list of kinds

Every well-formed expression that keeps to precedence and associativity comes from a derivation of
the tokens that it writes. Tokens have one derivation, so there is one such expression for the kinds
of its tokens, and a parse without parentheses gives it.
-/

namespace CExpr

open NonTerminal (rung)
open CExpr.Expr (marksOfAll furtherMarks eraseAll)

/-! ## Longer chains -/

namespace Derivation

/-- A chain of operators with more of them at its end. -/
def append {t : Tier} : Derivation (.tierRest t) → Derivation (.tierRest t) →
    Derivation (.tierRest t)
  | noOperator, more => more
  | operator sign op hsign operand rest, more => operator sign op hsign operand (rest.append more)

/-- A chain of suffixes with more of them at its end. -/
def appendSuffixes : Derivation .suffixedRest → Derivation .suffixedRest → Derivation .suffixedRest
  | noSuffix, more => more
  | step sign op hsign hop rest, more => step sign op hsign hop (rest.appendSuffixes more)
  | selection sign op hsign hop member hmember rest, more =>
    selection sign op hsign hop member hmember (rest.appendSuffixes more)
  | index opening hopening body closing hclosing rest, more =>
    index opening hopening body closing hclosing (rest.appendSuffixes more)
  | call opening hopening list closing hclosing rest, more =>
    call opening hopening list closing hclosing (rest.appendSuffixes more)

@[simp] theorem leaves_append {t : Tier} (rest more : Derivation (.tierRest t)) :
    (rest.append more).leaves = rest.leaves ++ more.leaves := by
  fun_induction append rest more with
  | case1 more => rfl
  | case2 more sign op hsign operand rest ih => simp [ih]

theorem after_append {t : Tier} (rest more : Derivation (.tierRest t)) (left : Expr) :
    (rest.append more).after left = more.after (rest.after left) := by
  fun_induction append rest more generalizing left with
  | case1 more => rfl
  | case2 more sign op hsign operand rest ih => exact ih _

@[simp] theorem leaves_appendSuffixes (rest more : Derivation .suffixedRest) :
    (rest.appendSuffixes more).leaves = rest.leaves ++ more.leaves := by
  fun_induction appendSuffixes rest more with
  | case1 => rfl
  | case2 | case3 | case4 | case5 => simp [*]

theorem after_appendSuffixes (rest more : Derivation .suffixedRest) (left : Expr) :
    (rest.appendSuffixes more).after left = more.after (rest.after left) := by
  fun_induction appendSuffixes rest more generalizing left with
  | case1 => rfl
  | case2 sign op hsign hop rest more ih
  | case3 sign op hsign hop member hmember rest more ih
  | case4 opening hopening body closing hclosing rest more ih
  | case5 opening hopening list closing hclosing rest more ih => exact ih _

@[simp] theorem expr_wrap :
    (height : Nat) → (body : Derivation (rung height)) → (wrap height body).expr = body.expr
  | 0, _ | 1, _ | 2, _ | 3, _ | 4, _ | 5, _ | 6, _ | 7, _ | 8, _ | 9, _ | 10, _ | 11, _ | 12, _
  | 13, _ | 14, _ | _ + 15, _ => rfl

@[simp] theorem expr_climb {height : Nat} (body : Derivation (rung height)) (count : Nat) :
    (body.climb count).expr = body.expr := by
  induction count with
  | zero => rfl
  | succ count ih => rw [climb, expr_wrap, ih]

/-- A derivation is carried up without a change to its tokens or its expression. -/
theorem exists_climb {height higher : Nat} (body : Derivation (rung height))
    (hle : height ≤ higher) :
    ∃ carried : Derivation (rung higher),
      carried.tokens = body.tokens ∧ carried.expr = body.expr := by
  obtain ⟨count, rfl⟩ := Nat.exists_eq_add_of_le hle
  exact ⟨body.climb count, by simp [tokens], expr_climb body count⟩

end Derivation

/-! ## Derivations of expressions -/

/-- The rule derives the words with the expression, up to texts and places. -/
def NonTerminal.Gives (rule : NonTerminal) (words : List Token) (expr : Expr) : Prop :=
  ∃ derivation : Derivation rule,
    derivation.tokens = words ∧ derivation.expr.erase = expr.erase

namespace NonTerminal.Gives

variable {words front : List Token} {expr left : Expr}

/-- What a rule derives is derived by every rule on a higher rung. -/
theorem climb {height higher : Nat} (hle : height ≤ higher)
    (h : (rung height).Gives words expr) : (rung higher).Gives words expr := by
  obtain ⟨derivation, hwords, hexpr⟩ := h
  obtain ⟨carried, htokens, hcarried⟩ := derivation.exists_climb hle
  exact ⟨carried, htokens.trans hwords, by rw [hcarried, hexpr]⟩

/-- More operators go on from an expression of their tier. -/
theorem tier {t : Tier} (hleft : (NonTerminal.tier t).Gives front left)
    (more : Derivation (.tierRest t)) (hmore : more.tokens = words)
    (h : ∀ other : Expr, other.erase = left.erase → (more.after other).erase = expr.erase) :
    (NonTerminal.tier t).Gives (front ++ words) expr := by
  obtain ⟨derivation, rfl, hexpr⟩ := hleft
  cases derivation with
  | tier first rest =>
    refine ⟨.tier first (rest.append more), by simp [← hmore, Derivation.tokens], ?_⟩
    rw [Derivation.expr, Derivation.after_append]
    exact h _ hexpr

/-- More suffixes go on from an expression with suffixes. -/
theorem suffixed (hleft : NonTerminal.suffixed.Gives front left)
    (more : Derivation .suffixedRest) (hmore : more.tokens = words)
    (h : ∀ other : Expr, other.erase = left.erase → (more.after other).erase = expr.erase) :
    NonTerminal.suffixed.Gives (front ++ words) expr := by
  obtain ⟨derivation, rfl, hexpr⟩ := hleft
  cases derivation with
  | suffixed first rest =>
    refine ⟨.suffixed first (rest.appendSuffixes more), by simp [← hmore, Derivation.tokens], ?_⟩
    rw [Derivation.expr, Derivation.after_appendSuffixes]
    exact h _ hexpr

variable {sign closing : Token} {back : List Token} {location : Location}

theorem primary {token word : Token}
    (h : token.kind ∈ [Kind.identifier, Kind.constant, Kind.stringLiteral])
    (hword : token.kind = word.kind) : NonTerminal.suffixed.Gives [word] (.primary token) := by
  refine ⟨.suffixed (.atom word (hword ▸ h)) .noSuffix, rfl, ?_⟩
  simp [Derivation.expr, Derivation.after, Expr.erase, Token.erase, hword]

theorem step {op : SuffixOp} (hop : op.isStep = true)
    (hleft : NonTerminal.suffixed.Gives front left)
    (hsign : SuffixOp.ofKind? sign.kind = some op) :
    NonTerminal.suffixed.Gives (front ++ [sign]) (.suffixed op left none [] location) := by
  apply hleft.suffixed (.step sign op hsign hop .noSuffix) rfl
  intro other hother
  simp [Derivation.after, Expr.erase, hother]

theorem selection {op : SuffixOp} (hop : op.isSelection = true) {member word : Token}
    (hleft : NonTerminal.suffixed.Gives front left)
    (hsign : SuffixOp.ofKind? sign.kind = some op) (hmember : member.kind = .identifier)
    (hword : member.kind = word.kind) :
    NonTerminal.suffixed.Gives (front ++ [sign, word])
      (.suffixed op left (some member) [] location) := by
  apply hleft.suffixed (.selection sign op hsign hop word (hword ▸ hmember) .noSuffix) rfl
  intro other hother
  simp [Derivation.after, Expr.erase, Token.erase, hother, hword]

theorem index {operand : Expr} (hleft : NonTerminal.suffixed.Gives front left)
    (hsign : SuffixOp.ofKind? sign.kind = some .index)
    (hoperand : NonTerminal.expression.Gives back operand) (hclosing : .punct ']' = closing.kind) :
    NonTerminal.suffixed.Gives (front ++ sign :: (back ++ [closing]))
      (.suffixed .index left none [operand] location) := by
  obtain ⟨body, rfl, hbody⟩ := hoperand
  have hopening : sign.kind = .punct '[' := by
    simpa [SuffixOp.table] using SuffixOp.ofKind?_eq_some_iff.1 hsign
  apply hleft.suffixed (.index sign hopening body closing hclosing.symm .noSuffix)
    (by simp [Derivation.tokens])
  intro other hother
  simp [Derivation.after, Expr.erase, eraseAll, hother, hbody]

theorem call {operands : List Expr} {list : Derivation .argumentList}
    (hleft : NonTerminal.suffixed.Gives front left)
    (hsign : SuffixOp.ofKind? sign.kind = some .call)
    (hlist : eraseAll list.exprs = eraseAll operands) (hclosing : .punct ')' = closing.kind) :
    NonTerminal.suffixed.Gives (front ++ sign :: (list.tokens ++ [closing]))
      (.suffixed .call left none operands location) := by
  have hopening : sign.kind = .punct '(' := by
    simpa [SuffixOp.table] using SuffixOp.ofKind?_eq_some_iff.1 hsign
  apply hleft.suffixed (.call sign hopening list closing hclosing.symm .noSuffix)
    (by simp [Derivation.tokens])
  intro other hother
  simp [Derivation.after, Expr.erase, hother, hlist]

theorem unary {op : UnaryOp} {operand : Expr} (hsign : UnaryOp.ofKind? sign.kind = some op)
    (h : NonTerminal.cast.Gives words operand) :
    NonTerminal.unary.Gives (sign :: words) (.unary op operand location) := by
  obtain ⟨derivation, rfl, hoperand⟩ := h
  exact ⟨.prefixed sign op hsign derivation, by simp [Derivation.tokens],
    by simp [Derivation.expr, Expr.erase, hoperand]⟩

theorem binary {op : BinaryOp} {right : Expr}
    (hleft : (NonTerminal.tier op.tier).Gives front left)
    (hsign : op.tier.operator? sign.kind = some op)
    (hright : op.tier.operand.Gives back right) :
    (NonTerminal.tier op.tier).Gives (front ++ sign :: back) (.binary op left right location) := by
  obtain ⟨derivation, rfl, hoperand⟩ := hright
  apply hleft.tier (.operator sign op hsign derivation .noOperator) (by simp [Derivation.tokens])
  intro other hother
  simp [Derivation.after, Expr.erase, hother, hoperand]

theorem conditional {question colon : Token} {first second third : List Token}
    {condition whenTrue whenFalse : Expr}
    (hcondition : (NonTerminal.tier .loosest).Gives first condition)
    (hquestion : .punct '?' = question.kind)
    (htrue : NonTerminal.expression.Gives second whenTrue) (hcolon : .punct ':' = colon.kind)
    (hfalse : NonTerminal.conditional.Gives third whenFalse) :
    NonTerminal.conditional.Gives (first ++ question :: (second ++ colon :: third))
      (.conditional condition whenTrue whenFalse location) := by
  obtain ⟨start, rfl, hstart⟩ := hcondition
  obtain ⟨middle, rfl, hmiddle⟩ := htrue
  obtain ⟨finish, rfl, hfinish⟩ := hfalse
  refine ⟨.conditional start
    (.choice question hquestion.symm middle colon hcolon.symm finish), ?_, ?_⟩
  · simp [Derivation.tokens]
  · simp [Derivation.expr, Derivation.after, Expr.erase, hstart, hmiddle, hfinish]

theorem assign {op : AssignOp} {target value : Expr}
    (htarget : NonTerminal.conditional.Gives front target)
    (hsign : AssignOp.ofKind? sign.kind = some op)
    (hvalue : NonTerminal.assignment.Gives back value) :
    NonTerminal.assignment.Gives (front ++ sign :: back) (.assign op target value location) := by
  obtain ⟨first, rfl, hfirst⟩ := htarget
  obtain ⟨second, rfl, hsecond⟩ := hvalue
  refine ⟨.assignment first (.assign sign op hsign second), ?_, ?_⟩
  · simp [Derivation.tokens]
  · simp [Derivation.expr, Derivation.after, Expr.erase, hfirst, hsecond]

end NonTerminal.Gives

/-! ## Tokens of marks -/

section

variable {α β : Type} {R : α → β → Prop}

theorem exists_append_of_forall₂_append {front back : List α} {words : List β}
    (h : List.Forall₂ R (front ++ back) words) :
    ∃ first rest, words = first ++ rest ∧
      List.Forall₂ R front first ∧ List.Forall₂ R back rest := by
  refine ⟨words.take front.length, words.drop front.length, ?_, ?_, ?_⟩
  · rw [List.take_append_drop]
  · simpa using List.forall₂_take front.length h
  · simpa using List.forall₂_drop front.length h

/-- Words for a list with a sign inside are cut at the word for the sign. -/
theorem exists_cut_of_forall₂ {front back : List α} {sign : α} {words : List β}
    (h : List.Forall₂ R (front ++ sign :: back) words) :
    ∃ first word rest, words = first ++ word :: rest ∧ List.Forall₂ R front first ∧
      R sign word ∧ List.Forall₂ R back rest := by
  obtain ⟨first, later, rfl, hfirst, hlater⟩ := exists_append_of_forall₂_append h
  obtain ⟨word, rest, hword, hrest, rfl⟩ := List.forall₂_cons_left_iff.1 hlater
  exact ⟨first, word, rest, rfl, hfirst, hword, hrest⟩

end

/-! ## One derivation for each expression -/

section

variable {operands : List Expr} {words : List Token}

theorem exists_furtherArguments
    (hgives : ∀ operand ∈ operands, ∀ part, List.Forall₂ Mark.Admits operand.marks part →
      NonTerminal.assignment.Gives part operand)
    (h : List.Forall₂ Mark.Admits (furtherMarks operands) words) :
    ∃ list : Derivation .argumentListRest, list.tokens = words ∧
      eraseAll list.exprs = eraseAll operands := by
  induction operands generalizing words with
  | nil =>
    rw [List.forall₂_nil_left_iff.1 h]
    exact ⟨.noArgument, rfl, rfl⟩
  | cons operand operands ih =>
    obtain ⟨comma, later, hcomma, hlater, rfl⟩ := List.forall₂_cons_left_iff.1 h
    obtain ⟨first, rest, rfl, hfirst, hrest⟩ := exists_append_of_forall₂_append hlater
    obtain ⟨start, rfl, hstart⟩ := hgives operand List.mem_cons_self first hfirst
    obtain ⟨list, rfl, hlist⟩ := ih
      (fun other hother ↦ hgives other (List.mem_cons_of_mem operand hother)) hrest
    refine ⟨.argument comma hcomma.symm start list, ?_, ?_⟩
    · simp [Derivation.tokens]
    · simp [Derivation.exprs, eraseAll, hstart, hlist]

theorem exists_arguments
    (hgives : ∀ operand ∈ operands, ∀ part, List.Forall₂ Mark.Admits operand.marks part →
      NonTerminal.assignment.Gives part operand)
    (h : List.Forall₂ Mark.Admits (marksOfAll operands) words) :
    ∃ list : Derivation .argumentList, list.tokens = words ∧
      eraseAll list.exprs = eraseAll operands := by
  cases operands with
  | nil =>
    rw [List.forall₂_nil_left_iff.1 h]
    exact ⟨.noArguments, rfl, rfl⟩
  | cons operand operands =>
    obtain ⟨first, rest, rfl, hfirst, hrest⟩ := exists_append_of_forall₂_append h
    obtain ⟨start, rfl, hstart⟩ := hgives operand List.mem_cons_self first hfirst
    obtain ⟨list, rfl, hlist⟩ := exists_furtherArguments
      (fun other hother ↦ hgives other (List.mem_cons_of_mem operand hother)) hrest
    refine ⟨.arguments start list, ?_, ?_⟩
    · simp [Derivation.tokens]
    · simp [Derivation.exprs, eraseAll, hstart, hlist]

end

namespace Expr

theorem gives_suffixed {op : SuffixOp} {left : Expr} {member : Option Token}
    {operands : List Expr} {location : Location} {words : List Token}
    (htakes : op.Takes member operands)
    (hleft : ∀ part, List.Forall₂ Mark.Admits left.marks part →
      NonTerminal.suffixed.Gives part left)
    (hoperands : ∀ operand ∈ operands, ∀ part, List.Forall₂ Mark.Admits operand.marks part →
      NonTerminal.assignment.Gives part operand)
    (h : List.Forall₂ Mark.Admits (suffixed op left member operands location).marks words) :
    NonTerminal.suffixed.Gives words (suffixed op left member operands location) := by
  obtain ⟨front, sign, back, rfl, hfront, hsign, hback⟩ := exists_cut_of_forall₂ h
  have hgives := hleft front hfront
  cases op with
  | increment | decrement =>
    obtain ⟨rfl, rfl⟩ := htakes
    rw [List.forall₂_nil_left_iff.1 hback]
    exact .step rfl hgives hsign
  | arrow | dot =>
    obtain ⟨⟨token, rfl, hkind⟩, rfl⟩ := htakes
    obtain ⟨word, rest, hword, hrest, rfl⟩ := List.forall₂_cons_left_iff.1 hback
    rw [List.forall₂_nil_left_iff.1 hrest]
    exact .selection rfl hgives hsign hkind hword
  | index =>
    obtain ⟨rfl, operand, rfl⟩ := htakes
    obtain ⟨middle, closing, rest, rfl, hmiddle, hclosing, hrest⟩ := exists_cut_of_forall₂ hback
    rw [List.forall₂_nil_left_iff.1 hrest]
    have hmarks : List.Forall₂ Mark.Admits operand.marks middle := by
      simpa [marksOfAll, furtherMarks] using hmiddle
    have hindex := hoperands operand List.mem_cons_self middle hmarks
    have hexpression : (rung 15).Gives middle operand :=
      NonTerminal.Gives.climb (show 14 ≤ 15 by decide) hindex
    exact .index hgives hsign hexpression hclosing
  | call =>
    obtain rfl : member = none := htakes
    obtain ⟨middle, closing, rest, rfl, hmiddle, hclosing, hrest⟩ := exists_cut_of_forall₂ hback
    rw [List.forall₂_nil_left_iff.1 hrest]
    obtain ⟨list, rfl, hlist⟩ := exists_arguments hoperands hmiddle
    exact .call hgives hsign hlist hclosing

/-- An expression that keeps to precedence and associativity is derived by the rule of its height
from any tokens that it can write. Every operand is derived on the rung of its own height and climbs
to that of its place. -/
theorem gives_of_every {expr : Expr} (h : expr.Every fun e ↦ e.HasParts ∧ e.Obeys)
    {words : List Token} (hwords : List.Forall₂ Mark.Admits expr.marks words) :
    (rung expr.height).Gives words expr := by
  induction h generalizing words with
  | @intro expr here inside ih =>
    obtain ⟨hparts, hobeys⟩ := here
    cases expr with
    | primary token =>
      obtain ⟨word, rest, hword, hrest, rfl⟩ := List.forall₂_cons_left_iff.1 hwords
      rw [List.forall₂_nil_left_iff.1 hrest]
      exact .primary hparts hword
    | suffixed op left member operands location =>
      have hheight := obeys_suffixed_iff.1 hobeys
      apply gives_suffixed hparts
      · intro part hpart
        have hleft : (rung 0).Gives part left := (ih left List.mem_cons_self hpart).climb hheight
        exact hleft
      · intro operand hoperand part hpart
        have hmem := List.mem_cons_of_mem left hoperand
        have hbound := height_le_of_hasParts (inside operand hmem).here.1
        exact (ih operand hmem hpart).climb hbound
      · exact hwords
    | unary op operand location =>
      obtain ⟨sign, rest, hsign, hrest, rfl⟩ := List.forall₂_cons_left_iff.1 hwords
      have hheight := obeys_unary_iff.1 hobeys
      have hoperand := ih operand List.mem_cons_self hrest
      exact .unary hsign (hoperand.climb hheight)
    | binary op left right location =>
      obtain ⟨front, sign, back, rfl, hfront, hsign, hback⟩ := exists_cut_of_forall₂ hwords
      have hleftMem : left ∈ (binary op left right location).children := List.mem_cons_self
      have hrightMem : right ∈ (binary op left right location).children :=
        List.mem_cons_of_mem left List.mem_cons_self
      obtain ⟨hleftHeight, hrightHeight⟩ :=
        (obeys_binary_iff (inside left hleftMem).here.1 (inside right hrightMem).here.1).1 hobeys
      have hleft := (ih left hleftMem hfront).climb hleftHeight
      have hright := (ih right hrightMem hback).climb hrightHeight
      rw [Tier.rung_level] at hleft
      rw [Tier.rung_operand] at hright
      rw [height, Tier.rung_level]
      exact .binary hleft hsign hright
    | conditional condition whenTrue whenFalse location =>
      obtain ⟨first, question, later, rfl, hfirst, hquestion, hlater⟩ :=
        exists_cut_of_forall₂ hwords
      obtain ⟨second, colon, third, rfl, hsecond, hcolon, hthird⟩ := exists_cut_of_forall₂ hlater
      have hcondition := inside condition (by simp [children])
      have htrue := inside whenTrue (by simp [children])
      have hfalse := inside whenFalse (by simp [children])
      obtain ⟨hconditionHeight, hfalseHeight⟩ :=
        (obeys_conditional_iff hcondition.here.1 hfalse.here.1).1 hobeys
      have htrueHeight := Nat.le_succ_of_le (height_le_of_hasParts htrue.here.1)
      have hgives := (ih condition (by simp [children]) hfirst).climb hconditionHeight
      have hgivesTrue := (ih whenTrue (by simp [children]) hsecond).climb htrueHeight
      have hgivesFalse := (ih whenFalse (by simp [children]) hthird).climb hfalseHeight
      exact .conditional hgives hquestion hgivesTrue hcolon hgivesFalse
    | assign op target value location =>
      obtain ⟨front, sign, back, rfl, hfront, hsign, hback⟩ := exists_cut_of_forall₂ hwords
      have htarget := inside target (by simp [children])
      have hvalue := inside value (by simp [children])
      have htargetHeight := (obeys_assign_iff htarget.here.1).1 hobeys
      have hgives := (ih target (by simp [children]) hfront).climb htargetHeight
      have hgivesValue :=
        (ih value (by simp [children]) hback).climb (height_le_of_hasParts hvalue.here.1)
      exact .assign hgives hsign hgivesValue
    | declaration => exact hparts.elim

end Expr

/-! ## Uniqueness -/

namespace Derivation

/-- Tokens have one expression, since with the same end they are those of one tree. -/
theorem expr_eq_of_tokens_eq {first second : Derivation .expression}
    (h : first.tokens = second.tokens) : first.expr = second.expr := by
  let stop : Token := ⟨.endOfInput, .start, ""⟩
  have hnode : (root first stop rfl).toNode = (root second stop rfl).toNode := by
    apply toNode_eq_of_tokens_eq
    rw [tokens_root, tokens_root, h]
  have hexpr : Except.ok first.expr = (Except.ok second.expr : Except TreeError Expr) :=
    calc Except.ok first.expr
        = Expr.ofTree (root first stop rfl).toNode := (ofTree_toNode (root first stop rfl)).symm
      _ = Expr.ofTree (root second stop rfl).toNode := by rw [hnode]
      _ = Except.ok second.expr := ofTree_toNode (root second stop rfl)
  exact Except.ok.inj hexpr

theorem IsPlain.ungrouped_eq {rule : NonTerminal} {derivation : Derivation rule}
    (h : derivation.IsPlain) : derivation.ungrouped = derivation.tokens := by
  have hfilter : derivation.leaves.filter (!·.groups) = derivation.leaves :=
    List.filter_eq_self.2 fun leaf hleaf ↦ by simp [h leaf hleaf]
  rw [ungrouped, hfilter, tokens]

end Derivation

/-- Without parentheses, the expression of a parse has the operands that precedence and
associativity allow, and among the well-formed expressions that do it is the only one for the kinds
of the tokens before the first end, up to texts and places. -/
theorem exists_unique_expr_of_isPlain {tokens : List Token} {root : Node}
    (h : parse tokens = .ok root) (hplain : root.IsPlain) :
    ∃ expr, Expr.ofTree root = .ok expr ∧ expr.WellFormed ∧ expr.Every Expr.Obeys ∧
      List.Forall₂ Mark.Admits expr.marks (tokens.takeWhile Parse.Input.isWord) ∧
      ∀ other : Expr, other.WellFormed → other.Every Expr.Obeys →
        List.Forall₂ Mark.Admits other.marks (tokens.takeWhile Parse.Input.isWord) →
        other.erase = expr.erase := by
  obtain ⟨body, stop, hstop, rfl, hwords⟩ := exists_body_of_parse h
  have hroot := Derivation.isPlain_of_rowsAt hplain
  have hbody : body.IsPlain := (List.forall_mem_append.1 hroot).1
  have hwithin : body.expr.Within 14 := hbody.binds
  have hfits : List.Forall₂ Mark.Fits body.expr.marks body.ungrouped := body.written
  refine ⟨body.expr, Derivation.ofTree_toNode _, ?_, ?_, ?_, ?_⟩
  · exact hwithin.every.mono fun e he ↦ he.1
  · exact hwithin.every.mono fun e he ↦ he.2
  · rw [← hwords, ← hbody.ungrouped_eq]
    exact hfits.imp fun mark token hfit ↦ hfit.reads
  · intro other hformed hobeys hkinds
    have hheight := Nat.le_succ_of_le (Expr.height_le_of_hasParts hformed.here)
    have hgives := (Expr.gives_of_every (hformed.and hobeys) hkinds).climb hheight
    obtain ⟨derivation, htokens, hexpr⟩ := hgives
    have heq : body.expr = derivation.expr :=
      Derivation.expr_eq_of_tokens_eq (hwords.trans htokens.symm)
    rw [heq]
    exact hexpr.symm

theorem exists_unique_expr_plainSample :
    parse Derivation.plainSample.tokens = .ok Derivation.plainSample.toNode ∧
      Derivation.plainSample.toNode.IsPlain ∧
      ∃ expr, Expr.ofTree Derivation.plainSample.toNode = .ok expr ∧ expr.WellFormed ∧
        expr.Every Expr.Obeys ∧
        List.Forall₂ Mark.Admits expr.marks
          (Derivation.plainSample.tokens.takeWhile Parse.Input.isWord) ∧
        ∀ other : Expr, other.WellFormed → other.Every Expr.Obeys →
          List.Forall₂ Mark.Admits other.marks
            (Derivation.plainSample.tokens.takeWhile Parse.Input.isWord) →
          other.erase = expr.erase := by
  have h := Derivation.parse_plainSample
  have hplain : Derivation.plainSample.toNode.IsPlain := by decide +kernel
  exact ⟨h, hplain, exists_unique_expr_of_isPlain h hplain⟩

end CExpr
