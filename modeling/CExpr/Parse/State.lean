import CExpr.Parse.Error

/-!
# States of a parse

A state splits the words of the input into those consumed and those ahead, and counts two things:
how many nesting rules are open, and how many operators, suffixes and argument commas were consumed.
The limits bound both counts.
-/

namespace CExpr.Parse

/-- The most open nesting rules and the most counted tokens of one expression. -/
structure Limits where
  nesting : Option Nat
  operators : Option Nat

namespace Limits

/-- The limits that every parse keeps unless told otherwise. A pair of parentheses opens three
nesting rules, so they may be nested about sixty times. -/
def standard : Limits := ⟨some 192, some 1024⟩

def unlimited : Limits := ⟨none, none⟩

/-- Whether one more nesting rule may be opened inside this many. -/
def admitsDepth (limits : Limits) (depth : Nat) : Bool :=
  match limits.nesting with
  | some most => depth < most
  | none => true

/-- Whether an expression may hold this many counted tokens. -/
def admitsOperators (limits : Limits) (operators : Nat) : Bool :=
  match limits.operators with
  | some most => operators ≤ most
  | none => true

end Limits

structure State where
  /-- The consumed words, the latest first. -/
  before : List Token
  ahead : List Token
  depth : Nat
  operators : Nat
  deriving DecidableEq, Repr

namespace State

/-- The state before the first word. -/
def initial (words : List Token) : State := ⟨[], words, 0, 0⟩

/-- The number of consumed words. -/
def position (state : State) : Nat := state.before.length

/-- All words, consumed or not. -/
def words (state : State) : List Token := state.before.reverse ++ state.ahead

/-- The next token, which is the end of the input when no word is ahead. -/
def current (stop : Token) (state : State) : Token := state.ahead.headD stop

/-- The kind of the next token. -/
def lookahead (state : State) : Kind :=
  match state.ahead with
  | [] => .endOfInput
  | token :: _ => token.kind

/-- The text of the latest consumed word. -/
def previousText (state : State) : String :=
  match state.before with
  | [] => ""
  | token :: _ => token.lexeme

/-- The error at a next token of another kind than the one that stands in a body. -/
def mismatch (stop : Token) (state : State) (kind : Kind) (role : Role) : SyntaxError :=
  ⟨state.current stop,
    match role with
    | .required place => .missing kind place state.previousText
    | .leading | .counted => .expression⟩

/-- Consuming a word, with the words that are then ahead. -/
def consume (state : State) (role : Role) (token : Token) (ahead : List Token) : State where
  before := token :: state.before
  ahead := ahead
  depth := state.depth
  operators := state.operators + if role = .counted then 1 else 0

def enter (state : State) (rule : NonTerminal) : State :=
  { state with depth := state.depth + if rule.nests then 1 else 0 }

def leave (state : State) (rule : NonTerminal) : State :=
  { state with depth := state.depth - if rule.nests then 1 else 0 }

@[simp] theorem ahead_enter (state : State) (rule : NonTerminal) :
    (state.enter rule).ahead = state.ahead := rfl

@[simp] theorem ahead_leave (state : State) (rule : NonTerminal) :
    (state.leave rule).ahead = state.ahead := rfl

/-- Consuming the word ahead moves it and keeps all words. -/
theorem words_consume {state : State} {token : Token} {ahead : List Token}
    (h : state.ahead = token :: ahead) (role : Role) :
    (state.consume role token ahead).words = state.words := by
  simp [words, consume, h]

end State

end CExpr.Parse
