import CExpr.Token.Kind

/-!
# Operators

The operators of expressions by what they do with their operands, each with its symbol, and the
kinds of tokens that stand for prefix and assignment operators. Binary operators belong to
precedence tiers, which have a module of their own.
-/

namespace CExpr

inductive BinaryOp
  | times | divide | remainder
  | plus | minus
  | shiftLeft | shiftRight
  | less | greater | lessEqual | greaterEqual
  | equal | notEqual
  | bitwiseAnd | bitwiseXor | bitwiseOr
  | logicalAnd | logicalOr
  deriving DecidableEq, Repr

def BinaryOp.symbol : BinaryOp → String
  | times => "*"
  | divide => "/"
  | remainder => "%"
  | plus => "+"
  | minus => "-"
  | shiftLeft => "<<"
  | shiftRight => ">>"
  | less => "<"
  | greater => ">"
  | lessEqual => "<="
  | greaterEqual => ">="
  | equal => "=="
  | notEqual => "!="
  | bitwiseAnd => "&"
  | bitwiseXor => "^"
  | bitwiseOr => "|"
  | logicalAnd => "&&"
  | logicalOr => "||"

/-- Operators written before their operand. -/
inductive UnaryOp
  | increment | decrement | address | dereference | plus | minus | complement | not
  deriving DecidableEq, Repr

def UnaryOp.symbol : UnaryOp → String
  | increment => "++"
  | decrement => "--"
  | address => "&"
  | dereference => "*"
  | plus => "+"
  | minus => "-"
  | complement => "~"
  | not => "!"

/-- Operators written after their operand. -/
inductive SuffixOp
  | increment | decrement | arrow | dot | index | call
  deriving DecidableEq, Repr

def SuffixOp.symbol : SuffixOp → String
  | increment => "++"
  | decrement => "--"
  | arrow => "->"
  | dot => "."
  | index => "[]"
  | call => "()"

inductive AssignOp
  | plain | times | divide | remainder | plus | minus | shiftLeft | shiftRight | and | xor | or
  deriving DecidableEq, Repr

/-- The equals sign for plain assignment, otherwise the operator applied before the value is stored.
-/
def AssignOp.symbol : AssignOp → String
  | plain => "="
  | times => "*"
  | divide => "/"
  | remainder => "%"
  | plus => "+"
  | minus => "-"
  | shiftLeft => "<<"
  | shiftRight => ">>"
  | and => "&"
  | xor => "^"
  | or => "|"

namespace UnaryOp

def all : List UnaryOp :=
  [increment, decrement, address, dereference, plus, minus, complement, not]

/-- The kinds of tokens read as prefix operators. -/
def table : List (Kind × UnaryOp) :=
  [(.compound .increment, increment), (.compound .decrement, decrement), (.punct '&', address),
    (.punct '*', dereference), (.punct '+', plus), (.punct '-', minus), (.punct '~', complement),
    (.punct '!', not)]

/-- The prefix operator that a token of the kind stands for. -/
def ofKind? (kind : Kind) : Option UnaryOp := table.lookup kind

end UnaryOp

namespace SuffixOp

def all : List SuffixOp := [increment, decrement, arrow, dot, index, call]

/-- The kinds of tokens that open a suffix. -/
def table : List (Kind × SuffixOp) :=
  [(.compound .increment, increment), (.compound .decrement, decrement), (.compound .arrow, arrow),
    (.punct '.', dot), (.punct '[', index), (.punct '(', call)]

/-- The suffix that a token of the kind opens. -/
def ofKind? (kind : Kind) : Option SuffixOp := table.lookup kind

end SuffixOp

namespace AssignOp

/-- The kinds of tokens read as assignment operators. -/
def table : List (Kind × AssignOp) :=
  [(.punct '=', plain), (.compound .timesAssign, times), (.compound .divideAssign, divide),
    (.compound .remainderAssign, remainder), (.compound .plusAssign, plus),
    (.compound .minusAssign, minus), (.compound .shiftLeftAssign, shiftLeft),
    (.compound .shiftRightAssign, shiftRight), (.compound .andAssign, and),
    (.compound .xorAssign, xor), (.compound .orAssign, or)]

/-- The assignment operator that a token of the kind stands for. -/
def ofKind? (kind : Kind) : Option AssignOp := table.lookup kind

end AssignOp

end CExpr
