import CExpr.CommandLine.Program

/-!
# A host to read from

The program asks the system that it runs on for its source, and nothing of the program depends on
how that system answers. The file system below stands for such a host where there is none to ask. It
has one folder for work, the limits and the words of a host, and hardly anything else. A path is
followed part by part, and the first part that cannot be followed decides the answer. A folder can
be opened but not read.
-/

namespace CExpr.CommandLine

/-- A place on a system: the names that lead to it from the top, the last one first. -/
abbrev Place := List String

inductive Entry
  | folder
  | file (contents : ByteArray)

/-- What stands at each place, if anything does. -/
abbrev FileSystem := Place → Option Entry

namespace FileSystem

/-- The most bytes that a name can have. -/
def nameLimit : Nat := 255

/-- The most bytes that a path can have, however short its names are. -/
def pathLimit : Nat := 4095

def notFound : Reading := .cannotOpen "No such file or directory (os error 2)"

def notFolder : Reading := .cannotOpen "Not a directory (os error 20)"

def nameTooLong : Reading := .cannotOpen "File name too long (os error 36)"

def isFolder : Reading := .cannotRead "Is a directory (os error 21)"

/-- Whether a part of a path stays at the place that the path has led to. -/
def isHere (part : String) : Bool := part = "" || part = "."

/-- Reads the parts of a path from a folder. A file has nothing below it, not even itself, and
nothing is above the top but the top. -/
def readFrom (system : FileSystem) (place : Place) : List String → Reading
  | [] => isFolder
  | part :: parts =>
    if isHere part then readFrom system place parts
    else if part = ".." then readFrom system place.tail parts
    else if nameLimit < part.utf8ByteSize then nameTooLong
    else
      match system (part :: place) with
      | some .folder => readFrom system (part :: place) parts
      | some (.file contents) => if parts.isEmpty then .contents contents else notFolder
      | none => notFound

/-- Reads a path from a folder. A path that begins with a slash starts at the top instead. -/
def read (system : FileSystem) (place : Place) (path : String) : Reading :=
  if pathLimit < path.utf8ByteSize then nameTooLong
  else if path.toList.head? = some '/' then readFrom system [] (path.splitOn "/")
  else readFrom system place (path.splitOn "/")

end FileSystem

structure File where
  name : String
  contents : ByteArray

/-- A folder for temporary work, with the files in it. -/
abbrev Folder := List File

namespace Folder

/-- The folders at the top of a host. -/
def top : List String :=
  ["bin", "boot", "dev", "etc", "home", "lib", "media", "mnt", "opt", "proc", "root", "run", "sbin",
    "srv", "sys", "tmp", "usr", "var"]

/-- The place of the folder. Its own name is empty, so no path can spell it. -/
def place : Place := ["", "tmp"]

/-- A host that holds the folder, its own folders at the top, the empty device and the device that
gives the standard input. -/
def system (folder : Folder) (input : ByteArray) : FileSystem
  | [] | ["", "tmp"] => some .folder
  | [name] => if name ∈ top then some .folder else none
  | [name, "", "tmp"] => (folder.find? (·.name = name)).map (.file ·.contents)
  | ["null", "dev"] => some (.file .empty)
  | ["stdin", "dev"] => some (.file input)
  | _ => none

/-- Reads a path that starts in the folder. -/
def read (folder : Folder) (input : ByteArray) (path : String) : Reading :=
  (folder.system input).read place path

end Folder

end CExpr.CommandLine
