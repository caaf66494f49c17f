import CExpr.Grammar.NonTerminal

/-!
# Productions

The grammar of expressions as data. Every rule has a list of productions, and the kind of the next
token alone says which one applies: the first production that is chosen on that kind, or on any.

A rule that continues a list has a production with an empty body, which ends the list. An argument
list is empty exactly before a closing parenthesis.
-/

namespace CExpr

/-- Where a token was required, as messages put it. -/
inductive Place
  | conditional | index | arguments | expression | member
  deriving DecidableEq, Repr

/-- Why a token stands in a body. A leading token is the one that its production was chosen on, and
those of operators, suffixes and argument commas are counted. -/
inductive Role
  | leading
  | counted
  | required (place : Place)
  deriving DecidableEq, Repr

inductive Symbol
  | terminal (kind : Kind) (role : Role)
  | rule (name : NonTerminal)
  deriving DecidableEq, Repr

structure Production where
  /-- The kind of the next token that chooses the production; without one, every kind does. -/
  on : Option Kind
  body : List Symbol
  deriving DecidableEq, Repr

namespace Production

/-- Chosen on its own first token. -/
def leading (kind : Kind) (body : List Symbol) : Production :=
  ⟨some kind, .terminal kind .leading :: body⟩

/-- Chosen on its own first token, which is counted. -/
def counted (kind : Kind) (body : List Symbol) : Production :=
  ⟨some kind, .terminal kind .counted :: body⟩

/-- Chosen on every kind. -/
def otherwise (body : List Symbol) : Production := ⟨none, body⟩

/-- Whether a next token of the kind chooses the production. -/
def accepts (production : Production) (kind : Kind) : Bool :=
  production.on == none || production.on == some kind

end Production

/-- A whole input is one expression and its end. -/
def rootBody : List Symbol :=
  [.rule .expression, .terminal .endOfInput (.required .expression)]

namespace NonTerminal

open Production in
/-- The productions of a rule in the order in which they are tried. -/
def productions : NonTerminal → List Production
  | root => [otherwise rootBody]
  | expression => [otherwise [.rule assignment]]
  | assignment => [otherwise [.rule conditional, .rule assignmentRest]]
  | assignmentRest =>
    AssignOp.table.map (fun sign ↦ leading sign.1 [.rule assignment]) ++ [otherwise []]
  | conditional => [otherwise [.rule (tier .loosest), .rule conditionalRest]]
  | conditionalRest =>
    [leading (.punct '?')
      [.rule expression, .terminal (.punct ':') (.required .conditional), .rule conditional],
      otherwise []]
  | tier t => [otherwise [.rule t.operand, .rule (tierRest t)]]
  | tierRest t =>
    t.table.map (fun sign ↦ counted sign.1 [.rule t.operand, .rule (tierRest t)]) ++ [otherwise []]
  | cast => [otherwise [.rule unary]]
  | unary =>
    UnaryOp.table.map (fun sign ↦ leading sign.1 [.rule cast]) ++ [otherwise [.rule suffixed]]
  | suffixed => [otherwise [.rule primary, .rule suffixedRest]]
  | suffixedRest =>
    [counted (.compound .increment) [.rule suffixedRest],
      counted (.compound .decrement) [.rule suffixedRest],
      counted (.compound .arrow)
        [.terminal .identifier (.required .member), .rule suffixedRest],
      counted (.punct '.') [.terminal .identifier (.required .member), .rule suffixedRest],
      counted (.punct '[')
        [.rule expression, .terminal (.punct ']') (.required .index), .rule suffixedRest],
      counted (.punct '(')
        [.rule argumentList, .terminal (.punct ')') (.required .arguments), .rule suffixedRest],
      otherwise []]
  | argumentList =>
    [⟨some (.punct ')'), []⟩, otherwise [.rule assignment, .rule argumentListRest]]
  | argumentListRest =>
    [counted (.punct ',') [.rule assignment, .rule argumentListRest], otherwise []]
  | primary =>
    [leading .identifier [], leading .constant [], leading .stringLiteral [],
      leading (.punct '(')
        [.rule expression, .terminal (.punct ')') (.required .expression)]]

/-- The production chosen by the kind of the next token. Only `primary` can be left without one. -/
def production? (rule : NonTerminal) (kind : Kind) : Option Production :=
  rule.productions.find? fun production ↦ production.accepts kind

theorem mem_productions {rule : NonTerminal} {kind : Kind} {production : Production}
    (h : rule.production? kind = some production) : production ∈ rule.productions :=
  List.mem_of_find?_eq_some h

theorem accepts_of_production? {rule : NonTerminal} {kind : Kind} {production : Production}
    (h : rule.production? kind = some production) : production.accepts kind = true := by
  simpa using List.find?_some h

end NonTerminal

end CExpr
