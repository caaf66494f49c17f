import CExpr.CommandLine.Program

/-!
# Entry point

Reads the source that the arguments name, hands it to the program and writes out its answer.
-/

namespace CExpr.CommandLine

/-- The words of the system for an error. -/
def reasonOf : IO.Error → String
  | .noFileOrDirectory _ code details | .resourceExhausted _ code details
  | .inappropriateType _ code details | .permissionDenied _ code details
  | .alreadyExists _ code details | .invalidArgument _ code details
  | .noSuchThing _ code details => details ++ " (os error " ++ toString code ++ ")"
  | error => toString error

/-- Reads a stream to its end. -/
partial def readAll (stream : IO.FS.Stream) (read : ByteArray) : IO ByteArray := do
  let chunk ← stream.read 65536
  if chunk.isEmpty then return read
  readAll stream (read ++ chunk)

def readFile (name : String) : IO Reading := do
  match ← (IO.FS.Handle.mk name .read).toBaseIO with
  | .error error => return .cannotOpen (reasonOf error)
  | .ok handle =>
    match ← handle.readBinToEnd.toBaseIO with
    | .error error => return .cannotRead (reasonOf error)
    | .ok bytes => return .contents bytes

def readInput : IO Reading := do
  match ← (readAll (← IO.getStdin) .empty).toBaseIO with
  | .error error => return .cannotRead (reasonOf error)
  | .ok bytes => return .contents bytes

/-- The source that the arguments ask for, if they ask for a session. -/
def readSource (arguments : List String) : IO Reading := do
  match Request.ofArguments arguments with
  | .session settings =>
    match settings.file with
    | some name => readFile name
    | none => readInput
  | _ => return .contents .empty

end CExpr.CommandLine

open CExpr.CommandLine in
def main (arguments : List String) : IO UInt32 := do
  let reading ← readSource arguments
  let out ← IO.getStdout
  let err ← IO.getStderr
  let exit := answer arguments (← err.isTty) fun _ ↦ reading
  out.write exit.out
  out.flush
  err.write exit.err
  return exit.code.toUInt32
