/-!
# Arguments

The arguments of the program, read from left to right. A request for help or for the version, and a
misuse, are acted upon where they stand, so what follows them is not looked at. A session depends on
the settings that it gets and not on how they were read.
-/

namespace CExpr.CommandLine

structure Settings where
  /-- The file to read; without one, the standard input is read. -/
  file : Option String
  showTokens : Bool
  showTree : Bool
  noColor : Bool
  /-- How often more detail was asked for. -/
  verbosity : Nat
  deriving DecidableEq, Repr

def Settings.initial : Settings := ⟨none, false, false, false, 0⟩

inductive Misuse
  | unknownOption (option : String)
  | repeatedOption (option : String)
  | unexpectedValue (option : String)
  | secondFile (name : String)
  | emptyFileName
  deriving DecidableEq, Repr

def Misuse.message : Misuse → String
  | unknownOption option => "unexpected argument '" ++ option ++ "' found"
  | repeatedOption option => "the argument '" ++ option ++ "' cannot be used multiple times"
  | unexpectedValue option => "the argument '" ++ option ++ "' takes no value"
  | secondFile name => "unexpected argument '" ++ name ++ "' found"
  | emptyFileName => "a value is required for '[FILE]' but none was supplied"

/-- What the arguments ask for. -/
inductive Request
  | session (settings : Settings)
  | help
  | version
  | misuse (misuse : Misuse)
  deriving DecidableEq, Repr

/-- What is known after some of the arguments: the settings so far, or the request that ended them.
-/
abbrev Progress := Except Request Settings

inductive Flag
  | showTokens | showTree | noColor | verbose | help | version
  deriving DecidableEq, Repr

namespace Flag

def ofName? : String → Option Flag
  | "tokens" => some showTokens
  | "tree" => some showTree
  | "no-color" => some noColor
  | "verbose" => some verbose
  | "help" => some help
  | "version" => some version
  | _ => none

def ofLetter? : Char → Option Flag
  | 'v' => some verbose
  | 'h' => some help
  | 'V' => some version
  | _ => none

end Flag

/-- Sets a flag that may be given once. -/
def setOnce (option : String) (given : Bool) (next : Settings) : Progress :=
  if given then .error (.misuse (.repeatedOption option)) else .ok next

/-- Acts upon a flag. Only `verbose` may be repeated. -/
def Settings.apply (settings : Settings) (option : String) : Flag → Progress
  | .showTokens => setOnce option settings.showTokens { settings with showTokens := true }
  | .showTree => setOnce option settings.showTree { settings with showTree := true }
  | .noColor => setOnce option settings.noColor { settings with noColor := true }
  | .verbose => .ok { settings with verbosity := settings.verbosity + 1 }
  | .help => .error .help
  | .version => .error .version

/-- Takes the one file name. -/
def Settings.takeFile (settings : Settings) (name : String) : Progress :=
  if settings.file.isSome then .error (.misuse (.secondFile name))
  else if name.isEmpty then .error (.misuse .emptyFileName)
  else .ok { settings with file := some name }

/-- Reads the text after two hyphens. No flag takes a value, so an equals sign is a misuse. -/
def Settings.readName (settings : Settings) (text : List Char) : Progress :=
  let name := String.ofList (text.takeWhile fun c ↦ c != '=')
  match Flag.ofName? name with
  | none => .error (.misuse (.unknownOption ("--" ++ name)))
  | some flag =>
    if '=' ∈ text then .error (.misuse (.unexpectedValue ("--" ++ name)))
    else settings.apply ("--" ++ name) flag

/-- Reads one of the letters after a single hyphen. -/
def Settings.readLetter (settings : Settings) (letter : Char) : Progress :=
  let option := "-" ++ String.ofList [letter]
  match Flag.ofLetter? letter with
  | none => .error (.misuse (.unknownOption option))
  | some flag => settings.apply option flag

/-- Reads an argument before two lone hyphens. A lone hyphen is a file name. -/
def Settings.readArgument (settings : Settings) (argument : String) : Progress :=
  match argument.toList with
  | '-' :: '-' :: name => settings.readName name
  | '-' :: letter :: letters => (letter :: letters).foldlM Settings.readLetter settings
  | _ => settings.takeFile argument

/-- Reads arguments in order. After two lone hyphens every argument is a file name. -/
def Settings.readArguments (settings : Settings) : List String → Progress
  | [] => .ok settings
  | argument :: rest =>
    if argument = "--" then rest.foldlM Settings.takeFile settings
    else
      match settings.readArgument argument with
      | .ok settings => settings.readArguments rest
      | .error request => .error request

/-- What a list of arguments asks for. -/
def Request.ofArguments (arguments : List String) : Request :=
  match Settings.initial.readArguments arguments with
  | .ok settings => .session settings
  | .error request => request

end CExpr.CommandLine
