import CExpr.Parse.Input
import CExpr.Parse.Run

/-!
# Parsers

A parser holds an input and the state in which its latest parse ended. Every parse starts over at
the first word, so a parser gives the same answer however often it is asked.
-/

namespace CExpr

structure Parser where
  input : Parse.Input
  state : Parse.State

namespace Parser

open Parse

def ofInput (input : Input) : Parser := ⟨input, .initial input.words⟩

def ofTokens (tokens : List Token) : Parser := ofInput (.ofTokens tokens)

/-- The run over the whole input, from its first word. -/
def outcome (limits : Limits) (input : Input) : Outcome (.initial input.words) :=
  run limits input.stop rootBody (.initial input.words)

/-- Parses the input within limits. -/
def parseWithin (limits : Limits) (parser : Parser) : Except SyntaxError Node × Parser :=
  ((outcome limits parser.input).result.map (Contents.toNode .root rootBody),
    { parser with state := (outcome limits parser.input).final })

/-- Parses the input within the standard limits. -/
def parse (parser : Parser) : Except SyntaxError Node × Parser := parser.parseWithin .standard

/-- The state of a parser has no bearing on what it answers. -/
theorem parseWithin_parseWithin (limits : Limits) (parser : Parser) :
    (parser.parseWithin limits).2.parseWithin limits = parser.parseWithin limits := rfl

end Parser

/-- The parse tree of a list of tokens. -/
def parse (tokens : List Token) : Except SyntaxError Node := (Parser.ofTokens tokens).parse.1

end CExpr
