import CExpr.Proofs.Text.Bytes
import CExpr.Scan.Basic
import Mathlib.Computability.StateTransition

/-!
# A cursor over the bytes of a source

What a scan cuts in one go, a cursor finds step by step. It looks at single bytes, keeps a byte
offset, and cuts the text of a token or a character that begins nothing out of the source by
offsets. White space, comments, numbers and words are passed byte by byte, a string literal
character by character. Where it would cut the source between the bytes of a character, it breaks.
-/

namespace CExpr.Scan

/-! ## Stages -/

/-- What is passed byte by byte up to the first byte of another class. -/
inductive Span
  | comment | decimal | hexadecimal | word
  deriving DecidableEq, Repr

/-- The class of the bytes. -/
def Span.part : Span → Char → Bool
  | comment => fun c ↦ c != '\n'
  | decimal => Char.isDigit
  | hexadecimal => isHexDigit
  | word => isWordPart

/-- What a cursor is doing. The offset of a stage is where the text begins that it passes. -/
inductive Stage
  /-- Between two turns: the last one is over, with or without a token. -/
  | turn
  /-- White space and comments are passed, up to a token. -/
  | spacing
  /-- A sign goes on for as long as the characters so far and the next one are a sign. -/
  | sign (start : Nat) (text : List Char) (kind : Kind)
  | string (start : Nat)
  | span (form : Span) (start : Nat)
  /-- The end of the input is among the tokens. -/
  | finished
  /-- The source was to be cut between the bytes of a character. -/
  | broken
  deriving DecidableEq, Repr

/-- Where the text begins that the stage passes. -/
def Stage.start? : Stage → Option Nat
  | sign start _ _ | string start | span _ start => some start
  | _ => none

/-- Whether the stage may end up between the bytes of a character. -/
def Stage.isComment : Stage → Bool
  | span .comment _ => true
  | _ => false

structure Cursor where
  stage : Stage
  position : Nat
  line : Nat
  tokens : List Token
  reports : List Report
  deriving DecidableEq, Repr

namespace Cursor

/-- Nothing is read yet. -/
def start : Cursor := ⟨.turn, 0, 0, [], []⟩

variable (source : String) (cursor : Cursor)

/-! ## Moves -/

/-- Goes on in a stage, some bytes further. -/
def move (stage : Stage) (width : Nat) : Cursor :=
  { cursor with stage, position := cursor.position + width }

/-- The turn ends with a report. -/
def fault (fault : Fault) : Cursor :=
  { cursor with stage := .turn, reports := cursor.reports ++ [⟨cursor.line, fault.message⟩] }

/-- The turn ends with a token, whose text is cut out of the source and decides the kind. -/
def emit (kind : List Char → Kind) (start : Nat) : Cursor :=
  match Text.slice? source start cursor.position with
  | some text =>
    { cursor with
      stage := .turn
      tokens := cursor.tokens ++ [⟨kind text, ⟨cursor.line, start⟩, String.ofList text⟩] }
  | none => { cursor with stage := .broken }

/-- Passes a whole character. -/
def passChar (stage : Stage) : Cursor :=
  match Text.slice? source cursor.position source.utf8ByteSize with
  | some rest => cursor.move stage ((rest.head?.map Char.utf8Size).getD 1)
  | none => { cursor with stage := .broken }

/-- Passes a character that begins no token. -/
def passInvalid : Cursor :=
  match Text.slice? source cursor.position source.utf8ByteSize with
  | some rest =>
    (cursor.fault (.invalidCharacter (rest.head?.getD (Char.ofNat 0)))).passChar source .turn
  | none => { cursor with stage := .broken }

/-- Begins the token that a byte opens. -/
def beginToken (byte : Char) : Cursor :=
  match signs.lookup [byte] with
  | some kind => cursor.move (.sign cursor.position [byte] kind) 1
  | none =>
    if byte = quote then cursor.move (.string cursor.position) 1
    else if byte.isDigit then
      if byte = '0' ∧ (Text.byteAt? source (cursor.position + 1) = some 'x' ∨
          Text.byteAt? source (cursor.position + 1) = some 'X') then
        cursor.move (.span .hexadecimal cursor.position) 2
      else cursor.move (.span .decimal cursor.position) 0
    else if isWordStart byte then cursor.move (.span .word cursor.position) 0
    else cursor.passInvalid source

/-- Passes white space and sees a comment or a token begin. The scan ends behind the last byte. -/
def passSpacing : Cursor :=
  match Text.byteAt? source cursor.position with
  | none =>
    { cursor with
      stage := .finished
      tokens := cursor.tokens ++ [⟨.endOfInput, ⟨cursor.line, cursor.position⟩, ""⟩] }
  | some byte =>
    if byte = '\n' then { cursor with line := cursor.line + 1 }.move .spacing 1
    else if isSpacing byte then cursor.move .spacing 1
    else if byte = '/' ∧ Text.byteAt? source (cursor.position + 1) = some '/' then
      cursor.move (.span .comment cursor.position) 0
    else cursor.beginToken source byte

/-- Adds a byte to a sign, unless that is no longer a sign. -/
def passSign (start : Nat) (text : List Char) (kind : Kind) : Cursor :=
  match Text.byteAt? source cursor.position with
  | none => cursor.emit source (fun _ ↦ kind) start
  | some byte =>
    match signs.lookup (text ++ [byte]) with
    | some longer => cursor.move (.sign start (text ++ [byte]) longer) 1
    | none => cursor.emit source (fun _ ↦ kind) start

/-- Passes a character of a string literal, which must be closed on its line. -/
def passString (start : Nat) : Cursor :=
  match Text.byteAt? source cursor.position with
  | none => cursor.fault .unterminatedString
  | some byte =>
    if byte = quote then
      (cursor.move (.string start) 1).emit source (fun _ ↦ .stringLiteral) start
    else if byte = '\n' then cursor.fault .unterminatedString
    else cursor.passChar source (.string start)

/-- Ends a span. A comment leaves nothing, and a zero and an x need a digit. -/
def endSpan (form : Span) (start : Nat) : Cursor :=
  match form with
  | .comment => cursor.move .spacing 0
  | .decimal => cursor.emit source (fun _ ↦ .constant) start
  | .hexadecimal =>
    if cursor.position = start + 2 then cursor.fault .missingHexDigits
    else cursor.emit source (fun _ ↦ .constant) start
  | .word => cursor.emit source wordKind start

/-- Passes a byte of a span. -/
def passSpan (form : Span) (start : Nat) : Cursor :=
  if (Text.byteAt? source cursor.position).any form.part then cursor.move (.span form start) 1
  else cursor.endSpan source form start

/-- The next cursor. There is none when the scan is over or broken. -/
def next? : Option Cursor :=
  match cursor.stage with
  | .turn => some (cursor.move .spacing 0)
  | .spacing => some (cursor.passSpacing source)
  | .sign start text kind => some (cursor.passSign source start text kind)
  | .string start => some (cursor.passString source start)
  | .span form start => some (cursor.passSpan source form start)
  | .finished | .broken => none

/-- The cursor comes about on the way through the source. -/
def Reached : Prop := StateTransition.Reaches (next? source) start cursor

end Cursor

end CExpr.Scan
