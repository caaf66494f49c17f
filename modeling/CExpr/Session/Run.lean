import CExpr.Session.Console
import CExpr.Session.Line
import CExpr.Text.Blank
import CExpr.Text.Lines

/-!
# Sessions

A session compiles an input line by line. Blank lines are passed over but counted, a line that fails
is counted as failed and the next one follows. Only trouble with a stream, or a tree of no
expression, ends a session early.
-/

namespace CExpr.Session

/-- Trouble with a stream. -/
inductive StreamFault
  | full
  | notUtf8
  /-- The system refused to read, in its own words. -/
  | refused (reason : String)
  deriving DecidableEq, Repr

def StreamFault.message : StreamFault → String
  | full => "write limit reached"
  | notUtf8 => "stream did not contain valid UTF-8"
  | refused reason => reason

/-- Why a session ended early. -/
inductive SessionError
  | stream (fault : StreamFault)
  | internal (line : Nat) (error : TreeError)
  deriving DecidableEq, Repr

def SessionError.message : SessionError → String
  | stream fault => "I/O error: " ++ fault.message
  | internal line error => "line " ++ toString line ++ ": " ++ error.message

/-- How many lines were compiled, and how many of them failed. -/
structure Tally where
  lines : Nat
  failed : Nat
  deriving DecidableEq, Repr

def Tally.add (tally : Tally) (clean : Bool) : Tally :=
  ⟨tally.lines + 1, tally.failed + if clean then 0 else 1⟩

/-- An input line by line. A line that cannot be read ends the session. -/
abbrev Input := List (Except StreamFault String)

/-- The lines of an input that can be read to its end. -/
def Input.ofBytes (bytes : ByteArray) : Input :=
  (Text.lines bytes).map fun
    | some text => .ok text
    | none => .error .notUtf8

/-- Writes out the report of one line, and tells whether the line was clean. -/
def submit (listing : Listing) (console : Console) (number : Nat) (source : String) :
    Console × Except SessionError Bool :=
  let report := LineReport.ofSource .standard listing number source
  let (console, whole) := console.sendAll report.writes
  (console,
    if whole then
      match report.verdict with
      | .clean => .ok true
      | .flawed => .ok false
      | .broken error => .error (.internal number error)
    else .error (.stream .full))

/-- Goes on with a session at a line number. -/
def runFrom (listing : Listing) (number : Nat) (tally : Tally) (console : Console) :
    Input → Console × Except SessionError Tally
  | [] => (console, .ok tally)
  | .error fault :: _ => (console, .error (.stream fault))
  | .ok source :: rest =>
    if Text.isBlank source then runFrom listing (number + 1) tally console rest
    else
      match submit listing console number source with
      | (console, .ok clean) => runFrom listing (number + 1) (tally.add clean) console rest
      | (console, .error error) => (console, .error error)

/-- Compiles every line of an input. Lines are numbered from one. -/
def run (listing : Listing) (console : Console) (input : Input) :
    Console × Except SessionError Tally :=
  runFrom listing 1 ⟨0, 0⟩ console input

end CExpr.Session
