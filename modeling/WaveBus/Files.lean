import WaveBus.Text.Line

/-! # Files

A snapshot of a directory tree, seen from the directory a program runs in, and
the ways in which reading and writing by path can fail. A path is walked name by
name: every name but the last must lead to a directory, and a name is looked up,
and may be too long, only where a directory is.
-/

namespace WaveBus

/-- Why a file cannot be read or written. -/
inductive FileError where
  | notFound
  | notDirectory
  | isDirectory
  /-- A name has more than 255 bytes, or a path more than 4095. -/
  | nameTooLong
  /-- A path holds the character that ends texts for the system. -/
  | nulInPath
  /-- The bytes are not UTF-8. -/
  | notText
  /-- Any other cause, in the words of the system. -/
  | other (cause : String)
  deriving Repr, DecidableEq

def FileError.message : FileError → String
  | .notFound => "No such file or directory (os error 2)"
  | .notDirectory => "Not a directory (os error 20)"
  | .isDirectory => "Is a directory (os error 21)"
  | .nameTooLong => "File name too long (os error 36)"
  | .nulInPath => "file name contained an unexpected NUL byte"
  | .notText => "stream did not contain valid UTF-8"
  | .other cause => cause

/-- The bytes that a name may have. -/
def maxNameSize : Nat := 255

/-- The bytes that a path may have. -/
def maxPathSize : Nat := 4095

/-- The path of `name` inside `directory`. Only a separator that is missing is
    added, and a name that starts at the root stands for itself. -/
def joinPath (directory name : String) : String :=
  if name.startsWith "/" then name
  else if directory.isEmpty || directory.endsWith "/" then directory ++ name
  else directory ++ "/" ++ name

/-- The names that lead to a place. `..` at the front leads out of the snapshot, `/` to its root. -/
abbrev Location := List String

namespace Location

/-- The names of a path, and an empty one for each separator at an end or next to another. -/
def names (path : String) : List String :=
  (Text.splitAll '/' path.toList).map String.ofList

def start (path : String) : Location :=
  if path.startsWith "/" then ["/"] else []

/-- Whether a place encloses the snapshot. Such a place is a directory, with nothing else known in it. -/
def encloses (place : Location) : Bool :=
  place.all (· == "..") || place == ["/"]

def parent (place : Location) : Location :=
  if place == ["/"] then place else if place.all (· == "..") then place ++ [".."] else place.dropLast

def step (place : Location) (name : String) : Location :=
  if name.isEmpty || name == "." then place
  else if name == ".." then place.parent
  else place ++ [name]

end Location

/-- A directory tree: its files, and the directories that may hold none. -/
structure Files where
  files : List (Location × ByteArray) := []
  directories : List Location := []

namespace Files

/-- What is found at a place. -/
inductive Entry where
  | file (bytes : ByteArray)
  | directory
  | missing

/-- What stands at a place. Whatever lies below it makes it a directory. -/
def entry (fs : Files) (place : Location) : Entry :=
  match fs.files.lookup place with
  | some bytes => .file bytes
  | none =>
      if place.encloses || fs.directories.any place.isPrefixOf
          || fs.files.any (fun (held, _) => place.isPrefixOf held) then
        .directory
      else
        .missing

/-- Fails unless a directory stands at the place. -/
def enter (fs : Files) (place : Location) : Except FileError Unit :=
  match fs.entry place with
  | .directory => .ok ()
  | .file _ => .error .notDirectory
  | .missing => .error .notFound

/-- Follows one name from a place, which must be a directory. -/
def follow (fs : Files) (place : Location) (name : String) : Except FileError Location := do
  fs.enter place
  if maxNameSize < name.utf8ByteSize then
    throw .nameTooLong
  return place.step name

/-- Where the names lead from a place. -/
def walk (fs : Files) : Location → List String → Except FileError Location
  | place, [] => .ok place
  | place, name :: rest => do fs.walk (← fs.follow place name) rest

/-- Fails for a path that is refused as it stands, whatever the tree holds. -/
def checkPath (path : String) : Except FileError Unit :=
  if path.toList.contains '\x00' then .error .nulInPath
  else if path.isEmpty then .error .notFound
  else if maxPathSize < path.utf8ByteSize then .error .nameTooLong
  else .ok ()

def read (fs : Files) (path : String) : Except FileError ByteArray := do
  checkPath path
  let place ← fs.walk (Location.start path) (Location.names path)
  match fs.entry place with
  | .file bytes => return bytes
  | .directory => throw .isDirectory
  | .missing => throw .notFound

/-- Puts a file at a place, over the one that stands there. -/
def put (fs : Files) (place : Location) (bytes : ByteArray) : Files :=
  { fs with files := (place, bytes) :: fs.files.filter (fun (held, _) => held != place) }

/-- Writes a whole file. Its directory must exist; a path that ends in a separator
    or in a dot name can only mean a directory. -/
def write (fs : Files) (path : String) (bytes : ByteArray) : Except FileError Files := do
  checkPath path
  let all := Location.names path
  let named := (all.reverse.dropWhile String.isEmpty).reverse
  let name := named.getLastD ""
  let directory ← fs.walk (Location.start path) named.dropLast
  fs.enter directory
  if all.getLastD "" == "" || name == "." || name == ".." then
    throw .isDirectory
  let place ← fs.follow directory name
  match fs.entry place with
  | .directory => throw .isDirectory
  | _ => return fs.put place bytes

end Files

def textOf (bytes : ByteArray) : Except FileError String :=
  match String.fromUTF8? bytes with
  | some text => .ok text
  | none => .error .notText

end WaveBus
