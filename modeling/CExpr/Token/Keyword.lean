/-!
# Reserved words

The words that are never identifiers. An expression has no use for any of them, so each one is only
ever found where something else is expected.
-/

namespace CExpr

inductive Keyword
  | breakWord | caseWord | charWord | constWord | continueWord | defaultWord | doWord | elseWord
  | forWord | gotoWord | ifWord | intWord | registerWord | returnWord | shortWord | signedWord
  | staticWord | structWord | switchWord | unionWord | unsignedWord | voidWord | whileWord
  deriving DecidableEq, Repr

namespace Keyword

/-- The reserved words in alphabetical order, which is also the order of their codes. -/
def all : List Keyword :=
  [breakWord, caseWord, charWord, constWord, continueWord, defaultWord, doWord, elseWord, forWord,
    gotoWord, ifWord, intWord, registerWord, returnWord, shortWord, signedWord, staticWord,
    structWord, switchWord, unionWord, unsignedWord, voidWord, whileWord]

def spelling : Keyword → String
  | breakWord => "break"
  | caseWord => "case"
  | charWord => "char"
  | constWord => "const"
  | continueWord => "continue"
  | defaultWord => "default"
  | doWord => "do"
  | elseWord => "else"
  | forWord => "for"
  | gotoWord => "goto"
  | ifWord => "if"
  | intWord => "int"
  | registerWord => "register"
  | returnWord => "return"
  | shortWord => "short"
  | signedWord => "signed"
  | staticWord => "static"
  | structWord => "struct"
  | switchWord => "switch"
  | unionWord => "union"
  | unsignedWord => "unsigned"
  | voidWord => "void"
  | whileWord => "while"

/-- The reserved word spelled by exactly these characters. -/
def ofSpelling? (text : List Char) : Option Keyword :=
  all.find? fun word ↦ word.spelling.toList = text

theorem mem_all (word : Keyword) : word ∈ all := by cases word <;> decide

@[simp] theorem ofSpelling?_spelling (word : Keyword) :
    ofSpelling? word.spelling.toList = some word := by
  cases word <;> decide

end Keyword

end CExpr
