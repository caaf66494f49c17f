import CExpr.Token.Kind

/-!
# Tokens

A token is a kind, the location of its first character and its text. The text of a token is kept
apart from its kind, so a token made by hand may carry a text that its kind would never have.
-/

namespace CExpr

/-- A place in a source: the number of line feeds before it and the number of bytes before it. -/
structure Location where
  line : Nat
  position : Nat
  deriving DecidableEq, Repr

namespace Location

/-- The beginning of a source. -/
def start : Location := ⟨0, 0⟩

def description (location : Location) : String :=
  "line " ++ toString location.line ++ ", position " ++ toString location.position

end Location

structure Token where
  kind : Kind
  location : Location
  lexeme : String
  deriving DecidableEq, Repr

namespace Token

/-- The words by which messages name a token. -/
def description (token : Token) : String :=
  match token.kind with
  | .identifier => "identifier '" ++ token.lexeme ++ "'"
  | .constant => "constant " ++ token.lexeme
  | .stringLiteral => "string literal " ++ token.lexeme
  | .endOfInput => "end of input"
  | _ => "'" ++ token.lexeme ++ "'"

/-- The name of the class of a token whose text varies, and the text of any other token. -/
def className (token : Token) : String :=
  match token.kind with
  | .identifier => "IDENTIFIER"
  | .constant => "CONSTANT"
  | .stringLiteral => "STRING"
  | .endOfInput => "EOF"
  | _ => token.lexeme

/-- Where the token ends when it lies on one line. -/
def finish (token : Token) : Location :=
  ⟨token.location.line, token.location.position + token.lexeme.utf8ByteSize⟩

end Token

end CExpr
