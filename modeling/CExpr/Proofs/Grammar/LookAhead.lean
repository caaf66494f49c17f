import CExpr.Proofs.Grammar.Fills

/-!
# One token of look-ahead

The kind of the next token decides between the productions of a rule. For a production that is not
empty, every kind that its tokens may begin with chooses it. The empty production is chosen on every
kind that can stand after the rule, which is any kind that would not go on with what the rule has
already read. All of this is read off the table of productions, and it makes the grammar one that is
parsed without a second look.
-/

namespace CExpr

open Parse (Contents)

namespace NonTerminal

/-! ## Kinds at the two ends of a rule -/

/-- The kinds of the tokens that an operand without prefix operators may begin with. -/
def atoms : List Kind := [.identifier, .constant, .stringLiteral, .punct '(']

/-- The kinds that the tokens of a rule may begin with. -/
def firsts : NonTerminal → List Kind
  | assignmentRest => AssignOp.table.map Prod.fst
  | conditionalRest => [.punct '?']
  | tierRest t => t.table.map Prod.fst
  | suffixedRest => SuffixOp.table.map Prod.fst
  | argumentListRest => [.punct ',']
  | suffixed | primary => atoms
  | _ => UnaryOp.table.map Prod.fst ++ atoms

/-- Whether the rule may be applied to no tokens. -/
def isOptional : NonTerminal → Bool
  | assignmentRest | conditionalRest | tierRest _ | suffixedRest | argumentList
  | argumentListRest => true
  | _ => false

/-- The kinds of the operators of a tier and of all tighter ones. -/
def operatorsWithin (tier : Tier) : List Kind :=
  (Tier.all.filter (·.level ≤ tier.level)).flatMap (·.table.map Prod.fst)

/-- The kinds on which the rule, or a rule at its end, takes in more tokens. -/
def continuations : NonTerminal → List Kind
  | primary => []
  | suffixedRest | suffixed | unary | cast => suffixedRest.firsts
  | tierRest t | tier t => operatorsWithin t ++ suffixedRest.firsts
  | conditionalRest | conditional =>
    conditionalRest.firsts ++ operatorsWithin .loosest ++ suffixedRest.firsts
  | assignmentRest | assignment | expression | root =>
    assignmentRest.firsts ++ conditionalRest.firsts ++ operatorsWithin .loosest ++
      suffixedRest.firsts
  | argumentListRest | argumentList =>
    argumentListRest.firsts ++ assignmentRest.firsts ++ conditionalRest.firsts ++
      operatorsWithin .loosest ++ suffixedRest.firsts

/-- Before a token of the kind the rule takes in no more. A list of arguments is always closed. -/
def EndsBefore (rule : NonTerminal) (kind : Kind) : Prop :=
  kind ∉ rule.continuations ∧ (rule = .argumentList → kind = .punct ')')

instance (rule : NonTerminal) (kind : Kind) : Decidable (rule.EndsBefore kind) :=
  inferInstanceAs (Decidable (_ ∧ _))

end NonTerminal

namespace Body

/-- The kinds that the tokens of a body may begin with. -/
def firsts : List Symbol → List Kind
  | [] => []
  | .terminal kind _ :: _ => [kind]
  | .rule name :: rest => name.firsts ++ if name.isOptional then firsts rest else []

/-- Whether the body may be filled by no tokens. -/
def isOptional : List Symbol → Bool
  | [] => true
  | .terminal _ _ :: _ => false
  | .rule name :: rest => name.isOptional && isOptional rest

/-- Each rule in the body ends before everything that may stand after it there, where the body as
a whole stands before a token of the kind. -/
def EndsBefore (kind : Kind) : List Symbol → Prop
  | [] => True
  | .terminal _ _ :: rest => EndsBefore kind rest
  | .rule name :: rest =>
    (∀ next ∈ firsts rest, name.EndsBefore next) ∧ (isOptional rest → name.EndsBefore kind) ∧
      EndsBefore kind rest

/-- The same for every kind that goes on with none of `continuations`, as far as the table says. -/
def Separates (continuations : List Kind) : List Symbol → Prop
  | [] => True
  | .terminal _ _ :: rest => Separates continuations rest
  | .rule name :: rest =>
    (∀ next ∈ firsts rest, name.EndsBefore next) ∧
      (isOptional rest → name.continuations ⊆ continuations ∧ name ≠ .argumentList) ∧
      Separates continuations rest

def decidableSeparates (continuations : List Kind) :
    (body : List Symbol) → Decidable (Separates continuations body)
  | [] => inferInstanceAs (Decidable True)
  | .terminal _ _ :: rest => decidableSeparates continuations rest
  | .rule _ :: rest =>
    have := decidableSeparates continuations rest
    inferInstanceAs (Decidable (_ ∧ _ ∧ _))

instance (continuations : List Kind) (body : List Symbol) :
    Decidable (Separates continuations body) :=
  decidableSeparates continuations body

theorem Separates.endsBefore {continuations : List Kind} {kind : Kind}
    (hkind : kind ∉ continuations) {body : List Symbol} (h : Separates continuations body) :
    EndsBefore kind body := by
  induction body with
  | nil => trivial
  | cons symbol rest ih =>
    cases symbol with
    | terminal => exact ih h
    | rule name =>
      obtain ⟨hnext, hlast, hrest⟩ := h
      refine ⟨hnext, fun hoptional ↦ ?_, ih hrest⟩
      obtain ⟨hsubset, hlist⟩ := hlast hoptional
      exact ⟨fun hmem ↦ hkind (hsubset hmem), fun heq ↦ absurd heq hlist⟩

end Body

/-! ## The table -/

namespace NonTerminal

variable {rule : NonTerminal} {production : Production}

theorem firsts_subset_of_mem (h : production ∈ rule.productions) :
    Body.firsts production.body ⊆ rule.firsts := by
  have hall : ∀ rule : NonTerminal, ∀ p ∈ rule.productions,
      Body.firsts p.body ⊆ rule.firsts := by decide
  exact hall rule production h

/-- Only an empty body is filled by no tokens. -/
theorem body_eq_nil_of_mem (h : production ∈ rule.productions)
    (hbody : Body.isOptional production.body = true) :
    production.body = [] ∧ rule.isOptional = true := by
  have hall : ∀ rule : NonTerminal, ∀ p ∈ rule.productions, Body.isOptional p.body = true →
      p.body = [] ∧ rule.isOptional = true := by decide
  exact hall rule production h hbody

/-- What the tokens of a production may begin with chooses that production. -/
theorem production?_of_mem_firsts (h : production ∈ rule.productions) {kind : Kind}
    (hkind : kind ∈ Body.firsts production.body) : rule.production? kind = some production := by
  have hall : ∀ rule : NonTerminal, ∀ p ∈ rule.productions, ∀ next ∈ Body.firsts p.body,
      rule.production? next = some p := by decide
  exact hall rule production h kind hkind

/-- On a kind that no production asks for, the first production that takes every kind is chosen. -/
theorem production?_of_not_mem {kind : Kind} (h : kind ∉ rule.productions.filterMap Production.on) :
    rule.production? kind = rule.productions.find? (·.on == none) := by
  have haccepts : ∀ p ∈ rule.productions, p.accepts kind = (p.on == none) := by
    intro p hp
    have hne : p.on ≠ some kind := fun heq ↦ h (List.mem_filterMap.2 ⟨p, hp, heq⟩)
    simp [Production.accepts, hne]
  rw [production?, ← List.head?_filter, ← List.head?_filter, List.filter_congr haccepts]

/-- The empty production is chosen before every kind that the rule ends before. -/
theorem production?_of_endsBefore (h : production ∈ rule.productions) (hbody : production.body = [])
    {kind : Kind} (hkind : rule.EndsBefore kind) : rule.production? kind = some production := by
  have hlist : rule = .argumentList → rule.production? (.punct ')') = some production := by
    rintro rfl
    have hall : ∀ p ∈ argumentList.productions, p.body = [] →
        argumentList.production? (.punct ')') = some p := by decide
    exact hall production h hbody
  have hother : ∀ rule : NonTerminal, rule ≠ .argumentList → ∀ p ∈ rule.productions, p.body = [] →
      rule.productions.find? (·.on == none) = some p := by decide
  have hon : ∀ rule : NonTerminal, rule.isOptional = true → rule ≠ .argumentList →
      rule.productions.filterMap Production.on ⊆ rule.continuations := by decide
  obtain ⟨hnot, hclosed⟩ := hkind
  by_cases hrule : rule = .argumentList
  · rw [hclosed hrule]
    exact hlist hrule
  · have hoptional := (body_eq_nil_of_mem h (by rw [hbody]; rfl)).2
    rw [production?_of_not_mem fun hmem ↦ hnot (hon rule hoptional hrule hmem)]
    exact hother rule hrule production h hbody

/-- Where a rule ends, the rules in its productions end. -/
theorem body_endsBefore (h : production ∈ rule.productions) {kind : Kind}
    (hkind : rule.EndsBefore kind) : Body.EndsBefore kind production.body := by
  have hall : ∀ rule : NonTerminal, ∀ p ∈ rule.productions,
      Body.Separates rule.continuations p.body := by decide
  exact (hall rule production h).endsBefore hkind.1

end NonTerminal

/-! ## The tokens of a filled body -/

variable {body : List Symbol} {contents : Contents} {tokens : List Token}

/-- A body that may not be left out has tokens. -/
theorem Fills.isOptional (h : Fills body contents []) : Body.isOptional body = true := by
  generalize hnil : ([] : List Token) = tokens at h
  induction h with
  | nil => rfl
  | terminal => cases hnil
  | rule hproduction _ _ ihInner ihRest =>
    obtain ⟨rfl, rfl⟩ := List.append_eq_nil_iff.1 hnil.symm
    have hname := (NonTerminal.body_eq_nil_of_mem hproduction (ihInner rfl)).2
    simp [Body.isOptional, hname, ihRest rfl]

/-- The first token of a filled body is of a kind that the body may begin with. -/
theorem Fills.kind_mem_firsts {token : Token} (h : Fills body contents (token :: tokens)) :
    token.kind ∈ Body.firsts body := by
  generalize hcons : token :: tokens = all at h
  induction h generalizing tokens with
  | nil => cases hcons
  | terminal first hkind =>
    cases hcons
    simp [Body.firsts, hkind]
  | @rule name production rest inner contents front back hproduction hinner hrest ihInner ihRest =>
    rw [Body.firsts, List.mem_append]
    cases front with
    | nil =>
      have hoptional := (NonTerminal.body_eq_nil_of_mem hproduction hinner.isOptional).2
      rw [if_pos hoptional]
      exact .inr (ihRest hcons)
    | cons first front =>
      obtain ⟨rfl, rfl⟩ : token = first ∧ tokens = front ++ back := by simpa using hcons
      exact .inl (NonTerminal.firsts_subset_of_mem hproduction (ihInner rfl))

end CExpr
