import CExpr.Token.Keyword

/-!
# Kinds of tokens

A token is punctuation of one character, a compound sign of two or three, a reserved word, a member
of one of the classes whose text varies, or the end of the input. Every kind has a numeric code, and
the kinds with a fixed text have a spelling.
-/

namespace CExpr

/-- The signs written with two or three characters. -/
inductive Compound
  | arrow | increment | decrement | shiftLeft | shiftRight | lessEqual | greaterEqual | equal
  | notEqual | logicalAnd | logicalOr
  | timesAssign | divideAssign | remainderAssign | plusAssign | minusAssign
  | shiftLeftAssign | shiftRightAssign | andAssign | xorAssign | orAssign
  deriving DecidableEq, Repr

namespace Compound

/-- The compound signs in the order of their codes. -/
def all : List Compound :=
  [arrow, increment, decrement, shiftLeft, shiftRight, lessEqual, greaterEqual, equal, notEqual,
    logicalAnd, logicalOr, timesAssign, divideAssign, remainderAssign, plusAssign, minusAssign,
    shiftLeftAssign, shiftRightAssign, andAssign, xorAssign, orAssign]

def spelling : Compound → String
  | arrow => "->"
  | increment => "++"
  | decrement => "--"
  | shiftLeft => "<<"
  | shiftRight => ">>"
  | lessEqual => "<="
  | greaterEqual => ">="
  | equal => "=="
  | notEqual => "!="
  | logicalAnd => "&&"
  | logicalOr => "||"
  | timesAssign => "*="
  | divideAssign => "/="
  | remainderAssign => "%="
  | plusAssign => "+="
  | minusAssign => "-="
  | shiftLeftAssign => "<<="
  | shiftRightAssign => ">>="
  | andAssign => "&="
  | xorAssign => "^="
  | orAssign => "|="

theorem mem_all (sign : Compound) : sign ∈ all := by cases sign <;> decide

end Compound

inductive Kind
  | punct (c : Char)
  | keyword (word : Keyword)
  | identifier
  | constant
  | stringLiteral
  | compound (sign : Compound)
  | endOfInput
  deriving DecidableEq, Repr

namespace Kind

/-- The characters that are punctuation on their own. -/
def punctuation : List Char :=
  ['[', ']', '(', ')', '{', '}', '.', '~', '?', ':', ';', ',', '-', '+', '=', '!', '&', '|', '*',
    '/', '%', '^', '<', '>']

/-- The least code of a kind that is not a single character. -/
def firstNamedCode : Nat := 128

/-- The kinds other than single characters, in the order of their codes. -/
def named : List Kind :=
  Keyword.all.map keyword ++ [identifier, constant, stringLiteral] ++
    Compound.all.map compound ++ [endOfInput]

/-- A single character has its code point; the other kinds are numbered from `firstNamedCode`. -/
def code : Kind → Nat
  | punct c => c.toNat
  | kind => firstNamedCode + named.idxOf kind

/-- The kind with a given code. The codes of single characters run from 1 to 126. -/
def ofCode? (code : Int) : Option Kind :=
  if 1 ≤ code ∧ code ≤ 126 then some (punct (Char.ofNat code.toNat))
  else if firstNamedCode ≤ code then named[code.toNat - firstNamedCode]?
  else none

def isKeyword : Kind → Bool
  | keyword _ => true
  | _ => false

/-- The one text of a kind whose text does not vary. -/
def spelling? : Kind → Option String
  | punct c => if c ∈ punctuation then some (String.ofList [c]) else none
  | keyword word => some word.spelling
  | compound sign => some sign.spelling
  | identifier | constant | stringLiteral | endOfInput => none

/-- The words by which messages name a kind. -/
def description (kind : Kind) : String :=
  match kind with
  | identifier => "identifier"
  | constant => "constant"
  | stringLiteral => "string literal"
  | endOfInput => "end of input"
  | kind =>
    match kind.spelling? with
    | some spelling => "'" ++ spelling ++ "'"
    | none => "token " ++ toString kind.code

theorem mem_named_iff (kind : Kind) : kind ∈ named ↔ ∀ c, kind ≠ punct c := by
  cases kind <;> simp [named, Keyword.mem_all, Compound.mem_all]

/-- The code of a kind other than punctuation is its place among the named kinds. -/
theorem code_of_named {kind : Kind} (h : ∀ c, kind ≠ punct c) :
    kind.code = firstNamedCode + named.idxOf kind := by
  cases kind with
  | punct c => exact absurd rfl (h c)
  | _ => rfl

/-- Reading back the code of a named kind gives the kind. -/
theorem ofCode?_code {kind : Kind} (h : ∀ c, kind ≠ punct c) : ofCode? kind.code = some kind := by
  cases kind with
  | punct c => exact absurd rfl (h c)
  | keyword word => cases word <;> rfl
  | compound sign => cases sign <;> rfl
  | identifier | constant | stringLiteral | endOfInput => rfl

end Kind

end CExpr
