import CExpr.CommandLine.Arguments
import CExpr.Session.Run

/-!
# The program

What the program answers: an exit code and the bytes for its two streams. The code is 0 when every
line was clean, 1 when a line failed or a stream made trouble, and 2 for a misuse of the arguments
or a fault of the program itself.
-/

namespace CExpr.CommandLine

structure Exit where
  code : Nat
  out : ByteArray
  err : ByteArray

/-- What comes of opening and reading a source. Each reason is in the words of the system. -/
inductive Reading
  | contents (bytes : ByteArray)
  | cannotOpen (reason : String)
  | cannotRead (reason : String)

def name : String := "lc2"

def version : String := name ++ " 0.1.0\n"

def usage : String := "Usage: " ++ name ++ " [OPTIONS] [FILE]\n"

def help : String :=
  "Parse C expressions line by line and print their ASTs\n\n" ++ usage ++
    "\nArguments:\n" ++
    "  [FILE]  Source file, one expression per line (reads stdin when omitted)\n" ++
    "\nOptions:\n" ++
    "      --tokens      Print every token before parsing\n" ++
    "      --tree        Print the parse tree outline before building the AST\n" ++
    "      --no-color    Disable coloured diagnostics\n" ++
    "  -v, --verbose...  Increase log verbosity (-v, -vv, -vvv)\n" ++
    "  -h, --help        Print help\n" ++
    "  -V, --version     Print version\n"

/-- The lines that a session gets from a source, unless the source cannot be opened. -/
def Reading.input? : Reading → Except String Session.Input
  | contents bytes => .ok (.ofBytes bytes)
  | cannotOpen reason => .error reason
  | cannotRead reason => .ok [.error (.refused reason)]

def exitCode : Except Session.SessionError Session.Tally → Nat
  | .ok tally => if tally.failed = 0 then 0 else 1
  | .error (.stream _) => 1
  | .error (.internal _ _) => 2

/-- The message after a session that ended early. -/
def closing : Except Session.SessionError Session.Tally → String
  | .ok _ => ""
  | .error error => "Error: " ++ error.message ++ "\n"

/-- A session over lines. Colours are shown on a terminal unless they are turned off. -/
def Settings.exitOf (settings : Settings) (terminal : Bool) (input : Session.Input) : Exit :=
  let console : Session.Console := ⟨terminal && !settings.noColor, .fresh none, .fresh none⟩
  let (console, result) :=
    Session.run ⟨settings.showTokens, settings.showTree⟩ console input
  ⟨exitCode result, console.out.taken, console.err.taken ++ (closing result).toUTF8⟩

/-- A session over a source, which is the file of the settings or the standard input. -/
def Settings.exit (settings : Settings) (terminal : Bool) (reading : Reading) : Exit :=
  match reading.input? with
  | .ok input => settings.exitOf terminal input
  | .error reason =>
    let message := "Error: cannot open '" ++ settings.file.getD "" ++ "': " ++ reason ++ "\n"
    ⟨1, .empty, message.toUTF8⟩

/-- The answer to a list of arguments, where `read` gives the source that a session asks for. -/
def answer (arguments : List String) (terminal : Bool) (read : Option String → Reading) : Exit :=
  match Request.ofArguments arguments with
  | .session settings => settings.exit terminal (read settings.file)
  | .help => ⟨0, help.toUTF8, .empty⟩
  | .version => ⟨0, version.toUTF8, .empty⟩
  | .misuse fault => ⟨2, .empty, ("error: " ++ fault.message ++ "\n\n" ++ usage).toUTF8⟩

end CExpr.CommandLine
