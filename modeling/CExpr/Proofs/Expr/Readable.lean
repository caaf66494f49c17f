import CExpr.Proofs.Expr.Erase
import CExpr.Proofs.Expr.Rendering
import CExpr.Proofs.Session.Verdict

/-!
# Reading a written form back

A written form opens with a mark of its shape, a comma ends the sign of an operator, and the name of
a class cannot be taken for an operand. Whatever stands behind a written form, it can therefore be
read in one way only, and expressions that are written the same differ in nothing but texts and
places.
-/

namespace CExpr

/-! ## Signs and classes -/

/-- Texts that end at a mark are told apart by it, where neither has the mark of the other. -/
theorem eq_of_append_cons_eq {α : Type} {first second behind more : List α} {a b : α}
    (hfirst : b ∉ first) (hsecond : a ∉ second) (h : first ++ a :: behind = second ++ b :: more) :
    first = second ∧ a :: behind = b :: more := by
  induction first generalizing second with
  | nil =>
    cases second with
    | nil => exact ⟨rfl, h⟩
    | cons head second =>
      obtain ⟨rfl, -⟩ := List.cons.inj h
      exact absurd List.mem_cons_self hsecond
  | cons head first ih =>
    cases second with
    | nil =>
      obtain ⟨rfl, -⟩ := List.cons.inj h
      exact absurd List.mem_cons_self hfirst
    | cons other second =>
      obtain ⟨rfl, htail⟩ := List.cons.inj h
      obtain ⟨rfl, hbehind⟩ := ih (List.not_mem_of_not_mem_cons hfirst)
        (List.not_mem_of_not_mem_cons hsecond) htail
      exact ⟨rfl, hbehind⟩

/-- The signs tell the operators apart when a comma stands behind each of them. -/
structure TellsApart {α : Type} (sign : α → String) : Prop where
  injective {first second : α} (h : sign first = sign second) : first = second
  notMem (op : α) : ',' ∉ (sign op).toList

theorem TellsApart.read {α : Type} {sign : α → String} (hsign : TellsApart sign) {first second : α}
    {behind more : List Char}
    (h : (sign first).toList ++ ',' :: behind = (sign second).toList ++ ',' :: more) :
    first = second ∧ behind = more := by
  obtain ⟨htext, hbehind⟩ := eq_of_append_cons_eq (hsign.notMem first) (hsign.notMem second) h
  exact ⟨hsign.injective (String.toList_inj.1 htext), (List.cons.inj hbehind).2⟩

theorem SuffixOp.tellsApart : TellsApart symbol where
  injective {first second} h := by
    revert h
    cases first <;> cases second <;> decide
  notMem op := by cases op <;> decide

theorem UnaryOp.tellsApart : TellsApart symbol where
  injective {first second} h := by
    revert h
    cases first <;> cases second <;> decide
  notMem op := by cases op <;> decide

theorem BinaryOp.tellsApart : TellsApart symbol where
  injective {first second} h := by
    revert h
    cases first <;> cases second <;> decide
  notMem op := by cases op <;> decide

theorem AssignOp.tellsApart : TellsApart symbol where
  injective {first second} h := by
    revert h
    cases first <;> cases second <;> decide
  notMem op := by cases op <;> decide

namespace Token

/-- The marks that stand behind the name of a class. -/
abbrev separators : List Char := [',', ')']

theorem notMem_className {token : Token} (h : token.kind ∈ Kind.classes) :
    ∀ mark ∈ separators, mark ∉ token.className.toList := by
  simp only [Kind.classes, List.mem_cons, List.not_mem_nil, or_false] at h
  rcases h with h | h | h | h <;> simp [className, h]

/-- The name of a class is not the beginning of an operand. -/
theorem className_append_ne {token : Token} (h : token.kind ∈ Kind.classes)
    (behind more : List Char) : token.className.toList ++ behind ≠ '(' :: more := by
  simp only [Kind.classes, List.mem_cons, List.not_mem_nil, or_false] at h
  rcases h with h | h | h | h <;> simp [className, h]

theorem kind_eq_of_className_eq {first second : Token} (hfirst : first.kind ∈ Kind.classes)
    (hsecond : second.kind ∈ Kind.classes) (h : first.className = second.className) :
    first.kind = second.kind := by
  simp only [Kind.classes, List.mem_cons, List.not_mem_nil, or_false] at hfirst hsecond
  rcases hfirst with hfirst | hfirst | hfirst | hfirst <;>
    rcases hsecond with hsecond | hsecond | hsecond | hsecond <;>
      simp_all [className]

theorem read_className {first second : Token} (hfirst : first.kind ∈ Kind.classes)
    (hsecond : second.kind ∈ Kind.classes) {a b : Char} (ha : a ∈ separators)
    (hb : b ∈ separators) {behind more : List Char}
    (h : first.className.toList ++ a :: behind = second.className.toList ++ b :: more) :
    first.erase = second.erase ∧ a :: behind = b :: more := by
  obtain ⟨hname, hbehind⟩ :=
    eq_of_append_cons_eq (notMem_className hfirst b hb) (notMem_className hsecond a ha) h
  have hkind := kind_eq_of_className_eq hfirst hsecond (String.toList_inj.1 hname)
  exact ⟨erase_eq_erase_iff.2 hkind, hbehind⟩

end Token

/-! ## Expressions -/

namespace Expr

/-- Whatever stands behind the expression, what is written can be read in one way only. -/
def IsReadable (expr : Expr) : Prop :=
  ∀ other : Expr, other.Legible → ∀ behind more : List Char,
    expr.spell behind = other.spell more → expr.erase = other.erase ∧ behind = more

theorem exists_spell_eq {expr : Expr} (h : expr.IsLegible) (behind : List Char) :
    ∃ more, expr.spell behind = '(' :: more := by
  cases expr with
  | declaration => cases h
  | _ => simp

section Parts

variable {operands others : List Expr} {member other : Option Token} {behind more : List Char}

theorem exists_spellAll_eq (operands : List Expr) (behind : List Char) :
    ∃ mark ∈ Token.separators, ∃ more, spellAll operands (')' :: behind) = mark :: more := by
  cases operands with
  | nil => exact ⟨')', by decide, behind, rfl⟩
  | cons => exact ⟨',', by decide, _, rfl⟩

/-- The number of operands and each of them can be read. -/
theorem eraseAll_eq_of_spellAll_eq (hreadable : ∀ operand ∈ operands, operand.IsReadable)
    (hothers : ∀ expr ∈ others, expr.Legible)
    (h : spellAll operands (')' :: behind) = spellAll others (')' :: more)) :
    eraseAll operands = eraseAll others ∧ behind = more := by
  induction operands generalizing others with
  | nil =>
    cases others with
    | nil => exact ⟨rfl, (List.cons.inj h).2⟩
    | cons => simp [spellAll] at h
  | cons operand operands ih =>
    cases others with
    | nil => simp [spellAll] at h
    | cons expr others =>
      obtain ⟨hexpr, hothers⟩ := List.forall_mem_cons.1 hothers
      obtain ⟨hoperand, hoperands⟩ := List.forall_mem_cons.1 hreadable
      obtain ⟨hfirst, htail⟩ := hoperand _ hexpr _ _ (List.cons.inj (List.cons.inj h).2).2
      obtain ⟨hrest, hbehind⟩ := ih hoperands hothers htail
      exact ⟨by rw [eraseAll, eraseAll, hfirst, hrest], hbehind⟩

theorem spellMember_ne_spellAll {token : Token} (htoken : token.kind ∈ Kind.classes)
    (hoperands : ∀ operand ∈ operands, operand.Legible) :
    spellMember (some token) more ≠ spellAll operands (')' :: behind) := by
  cases operands with
  | nil => simp [spellMember, spellAll]
  | cons operand operands =>
    obtain ⟨rest, hrest⟩ := exists_spell_eq (hoperands operand List.mem_cons_self).here
      (spellAll operands (')' :: behind))
    intro h
    have hname := (List.cons.inj (List.cons.inj h).2).2
    exact Token.className_append_ne htoken _ _ (hname.trans hrest)

/-- Whether there is a member can be read, and so can its class. -/
theorem erase_eq_of_spellMember_eq (hmember : ∀ token ∈ member, token.kind ∈ Kind.classes)
    (hother : ∀ token ∈ other, token.kind ∈ Kind.classes)
    (hoperands : ∀ operand ∈ operands, operand.Legible)
    (hothers : ∀ expr ∈ others, expr.Legible)
    (h : spellMember member (spellAll operands (')' :: behind)) =
      spellMember other (spellAll others (')' :: more))) :
    member.map Token.erase = other.map Token.erase ∧
      spellAll operands (')' :: behind) = spellAll others (')' :: more) := by
  cases member with
  | none =>
    cases other with
    | none => exact ⟨rfl, h⟩
    | some token => exact absurd h.symm (spellMember_ne_spellAll (hother token rfl) hoperands)
  | some token =>
    cases other with
    | none => exact absurd h (spellMember_ne_spellAll (hmember token rfl) hothers)
    | some third =>
      obtain ⟨a, ha, first, hfirst⟩ := exists_spellAll_eq operands behind
      obtain ⟨b, hb, second, hsecond⟩ := exists_spellAll_eq others more
      have hnames := (List.cons.inj (List.cons.inj h).2).2
      rw [hfirst, hsecond] at hnames ⊢
      obtain ⟨herase, hrest⟩ :=
        Token.read_className (hmember token rfl) (hother third rfl) ha hb hnames
      exact ⟨congrArg some herase, hrest⟩

end Parts

namespace IsReadable

variable {location : Location}

theorem primary {token : Token} (htoken : token.kind ∈ Kind.classes) :
    (Expr.primary token).IsReadable := by
  intro other hother behind more h
  cases other with
  | primary second =>
    simp only [spell_primary, List.cons.injEq, true_and] at h
    obtain ⟨herase, hbehind⟩ :=
      Token.read_className htoken hother.here (by decide) (by decide) h
    exact ⟨by rw [erase, erase, herase], (List.cons.inj hbehind).2⟩
  | declaration => cases hother.here
  | suffixed | unary | binary | conditional | assign => simp at h

theorem suffixed {op : SuffixOp} {left : Expr} {member : Option Token} {operands : List Expr}
    (hleft : left.IsReadable) (hmember : ∀ token ∈ member, token.kind ∈ Kind.classes)
    (hoperands : ∀ operand ∈ operands, operand.Legible ∧ operand.IsReadable) :
    (Expr.suffixed op left member operands location).IsReadable := by
  intro other hother behind more h
  cases other with
  | suffixed op' left' member' others location' =>
    obtain ⟨hleft', hothers⟩ := List.forall_mem_cons.1 hother.inside
    simp only [spell_suffixed, List.cons.injEq, true_and] at h
    obtain ⟨rfl, hafterOp⟩ := SuffixOp.tellsApart.read h
    obtain ⟨heraseLeft, hafterLeft⟩ := hleft _ hleft' _ _ (List.cons.inj hafterOp).2
    obtain ⟨heraseMember, hafterMember⟩ := erase_eq_of_spellMember_eq hmember hother.here
      (fun operand hmem ↦ (hoperands operand hmem).1) hothers hafterLeft
    obtain ⟨heraseAll, hbehind⟩ := eraseAll_eq_of_spellAll_eq
      (fun operand hmem ↦ (hoperands operand hmem).2) hothers hafterMember
    exact ⟨by rw [erase, erase, heraseLeft, heraseMember, heraseAll], hbehind⟩
  | declaration => cases hother.here
  | primary | unary | binary | conditional | assign => simp at h

theorem unary {op : UnaryOp} {operand : Expr} (hoperand : operand.IsReadable) :
    (Expr.unary op operand location).IsReadable := by
  intro other hother behind more h
  cases other with
  | unary op' operand' location' =>
    have hoperand' := hother.inside operand' List.mem_cons_self
    simp only [spell_unary, List.cons.injEq, true_and] at h
    obtain ⟨rfl, hafterOp⟩ := UnaryOp.tellsApart.read h
    obtain ⟨herase, hbehind⟩ := hoperand _ hoperand' _ _ (List.cons.inj hafterOp).2
    exact ⟨by rw [erase, erase, herase], (List.cons.inj hbehind).2⟩
  | declaration => cases hother.here
  | primary | suffixed | binary | conditional | assign => simp at h

theorem binary {op : BinaryOp} {left right : Expr} (hleft : left.IsReadable)
    (hright : right.IsReadable) : (Expr.binary op left right location).IsReadable := by
  intro other hother behind more h
  cases other with
  | binary op' left' right' location' =>
    have hparts := hother.inside
    simp only [children, List.forall_mem_cons] at hparts
    obtain ⟨hleft', hright', -⟩ := hparts
    simp only [spell_binary, List.cons.injEq, true_and] at h
    obtain ⟨heraseLeft, hafterLeft⟩ := hleft _ hleft' _ _ h
    simp only [List.cons.injEq, true_and] at hafterLeft
    obtain ⟨rfl, hafterOp⟩ := BinaryOp.tellsApart.read hafterLeft
    obtain ⟨heraseRight, hbehind⟩ := hright _ hright' _ _ (List.cons.inj hafterOp).2
    exact ⟨by rw [erase, erase, heraseLeft, heraseRight], (List.cons.inj hbehind).2⟩
  | declaration => cases hother.here
  | primary | suffixed | unary | conditional | assign => simp at h

theorem conditional {condition whenTrue whenFalse : Expr} (hcondition : condition.IsReadable)
    (htrue : whenTrue.IsReadable) (hfalse : whenFalse.IsReadable) :
    (Expr.conditional condition whenTrue whenFalse location).IsReadable := by
  intro other hother behind more h
  cases other with
  | conditional condition' whenTrue' whenFalse' location' =>
    have hparts := hother.inside
    simp only [children, List.forall_mem_cons] at hparts
    obtain ⟨hcondition', htrue', hfalse', -⟩ := hparts
    simp only [spell_conditional, List.cons.injEq, true_and] at h
    obtain ⟨heraseCondition, hafterCondition⟩ := hcondition _ hcondition' _ _ h
    simp only [List.cons.injEq, true_and] at hafterCondition
    obtain ⟨heraseTrue, hafterTrue⟩ := htrue _ htrue' _ _ hafterCondition
    simp only [List.cons.injEq, true_and] at hafterTrue
    obtain ⟨heraseFalse, hbehind⟩ := hfalse _ hfalse' _ _ hafterTrue
    exact ⟨by rw [erase, erase, heraseCondition, heraseTrue, heraseFalse],
      (List.cons.inj hbehind).2⟩
  | declaration => cases hother.here
  | primary | suffixed | unary | binary | assign => simp at h

theorem assign {op : AssignOp} {target value : Expr} (htarget : target.IsReadable)
    (hvalue : value.IsReadable) : (Expr.assign op target value location).IsReadable := by
  intro other hother behind more h
  cases other with
  | assign op' target' value' location' =>
    have hparts := hother.inside
    simp only [children, List.forall_mem_cons] at hparts
    obtain ⟨htarget', hvalue', -⟩ := hparts
    simp only [spell_assign, List.cons.injEq, true_and] at h
    obtain ⟨heraseTarget, hafterTarget⟩ := htarget _ htarget' _ _ h
    simp only [List.cons.injEq, true_and] at hafterTarget
    obtain ⟨rfl, hafterOp⟩ := AssignOp.tellsApart.read hafterTarget
    obtain ⟨heraseValue, hbehind⟩ := hvalue _ hvalue' _ _ (List.cons.inj hafterOp).2
    exact ⟨by rw [erase, erase, heraseTarget, heraseValue], (List.cons.inj hbehind).2⟩
  | declaration => cases hother.here
  | primary | suffixed | unary | binary | conditional => simp at h

end IsReadable

theorem Legible.isReadable {expr : Expr} (h : expr.Legible) : expr.IsReadable := by
  induction h with
  | @intro expr here inside ih =>
    cases expr with
    | primary token => exact .primary here
    | suffixed op left member operands location =>
      obtain ⟨hleft, hoperands⟩ := List.forall_mem_cons.1 ih
      refine .suffixed hleft here fun operand hmem ↦ ⟨?_, hoperands operand hmem⟩
      exact inside operand (List.mem_cons_of_mem left hmem)
    | unary op operand location => exact .unary (ih operand List.mem_cons_self)
    | binary op left right location =>
      simp only [children, List.forall_mem_cons] at ih
      exact .binary ih.1 ih.2.1
    | conditional condition whenTrue whenFalse location =>
      simp only [children, List.forall_mem_cons] at ih
      exact .conditional ih.1 ih.2.1 ih.2.2.1
    | assign op target value location =>
      simp only [children, List.forall_mem_cons] at ih
      exact .assign ih.1 ih.2.1
    | declaration => cases here

theorem erase_eq_of_render_eq {first second : Expr} (hfirst : first.Legible)
    (hsecond : second.Legible) (h : first.render = second.render) : first.erase = second.erase := by
  have hspell : first.spell [] = second.spell [] := by rw [spell, spell, h]
  exact (hfirst.isReadable second hsecond [] [] hspell).1

end Expr

/-! ## Sources -/

theorem legible_of_compileExpr_eq_ok {source : String} {expr : Expr} {reports : List Report}
    (h : compileExpr source = (.ok expr, reports)) : expr.Legible := by
  cases hparse : parse (scan source).tokens with
  | error error =>
    rw [compileExpr_of_parse_eq_error hparse] at h
    cases h
  | ok root =>
    obtain ⟨derivation, rfl, -⟩ := Parser.exists_derivation hparse
    rw [compileExpr_of_parse_eq_ok hparse derivation.ofTree_toNode] at h
    cases h
    exact derivation.forms.legible

/-- Expressions without declarations whose tokens are written as classes are written the same
exactly if they differ in nothing but texts and places. The expressions of sources are among them.
-/
theorem render_eq_render_iff :
    (∀ first second : Expr, first.Legible → second.Legible →
      (first.render = second.render ↔ first.erase = second.erase)) ∧
    ∀ source other first second reports otherReports,
      compileExpr source = (.ok first, reports) → compileExpr other = (.ok second, otherReports) →
        (first.render = second.render ↔ first.erase = second.erase) := by
  have hlegible (first second : Expr) (hfirst : first.Legible) (hsecond : second.Legible) :
      first.render = second.render ↔ first.erase = second.erase :=
    ⟨Expr.erase_eq_of_render_eq hfirst hsecond, Expr.render_eq_of_erase_eq hfirst hsecond⟩
  refine ⟨hlegible, fun source other first second reports otherReports hfirst hsecond ↦ ?_⟩
  exact hlegible first second (legible_of_compileExpr_eq_ok hfirst)
    (legible_of_compileExpr_eq_ok hsecond)

theorem Derivation.compileExpr_of_tokens {derivation : Derivation .root} {source : String}
    (htokens : (scan source).tokens = derivation.tokens)
    (hsizes : derivation.toNode.nesting ≤ 192 ∧ derivation.toNode.operators ≤ 1024) :
    compileExpr source = (.ok derivation.expr, (scan source).reports) := by
  apply compileExpr_of_parse_eq_ok _ derivation.ofTree_toNode
  rw [htokens]
  exact derivation.parseWithin_tokens (Parse.Limits.admit_standard_iff.2 hsizes)

/-- The name `x` as a whole input. -/
def Derivation.single : Derivation .root :=
  root ((ofName "x" 0).climb 15) ⟨.endOfInput, ⟨0, 1⟩, ""⟩ rfl

theorem render_eq_render_iff_sample :
    (Derivation.sample.expr.Legible ∧ Derivation.plainSample.expr.Legible ∧
      (Derivation.sample.expr.render = Derivation.plainSample.expr.render ↔
        Derivation.sample.expr.erase = Derivation.plainSample.expr.erase)) ∧
    compileExpr "f(a,-b)[i]+c*(d=e)?++p:q.m" =
        (.ok Derivation.sample.expr, (scan "f(a,-b)[i]+c*(d=e)?++p:q.m").reports) ∧
      compileExpr "x" = (.ok Derivation.single.expr, (scan "x").reports) ∧
      (Derivation.sample.expr.render = Derivation.single.expr.render ↔
        Derivation.sample.expr.erase = Derivation.single.expr.erase) := by
  have hsample : Derivation.sample.expr.Legible := Derivation.sample.forms.legible
  have hplain : Derivation.plainSample.expr.Legible := Derivation.plainSample.forms.legible
  have hfirst : compileExpr "f(a,-b)[i]+c*(d=e)?++p:q.m" =
      (.ok Derivation.sample.expr, (scan "f(a,-b)[i]+c*(d=e)?++p:q.m").reports) :=
    Derivation.compileExpr_of_tokens (by decide +kernel) Derivation.sizes_sample
  have hsecond : compileExpr "x" = (.ok Derivation.single.expr, (scan "x").reports) :=
    Derivation.compileExpr_of_tokens (by decide +kernel) (by decide +kernel)
  exact ⟨⟨hsample, hplain, render_eq_render_iff.1 _ _ hsample hplain⟩, hfirst, hsecond,
    render_eq_render_iff.2 _ _ _ _ _ _ hfirst hsecond⟩

end CExpr
