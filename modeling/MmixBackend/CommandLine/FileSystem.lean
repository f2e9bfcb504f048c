import MmixBackend.CommandLine.Path

/-!
# File systems

A tree of directories, files and devices, kept as a table from places to what stands there, and
where a path leads in it.  Every name on the way has to be a directory.  The last name is looked
at differently by the two uses: what is read has to be there already, what is written may be new.
-/

namespace MmixBackend.CommandLine

/-- Why a file cannot be read or written. -/
inductive FileError where
  | notFound
  | outOfMemory
  | notADirectory
  | isADirectory
  | noSpace
  | nameTooLong
  /-- The octets read are not UTF-8. -/
  | notText
  deriving DecidableEq, Repr

/-- The system's wording, with the number of the error if it has one. -/
def FileError.message : FileError → String
  | notFound => "No such file or directory (os error 2)"
  | outOfMemory => "out of memory"
  | notADirectory => "Not a directory (os error 20)"
  | isADirectory => "Is a directory (os error 21)"
  | noSpace => "No space left on device (os error 28)"
  | nameTooLong => "File name too long (os error 36)"
  | notText => "stream did not contain valid UTF-8"

/-- Devices that can be named like files. -/
inductive Device where
  /-- Has nothing to read and drops what is written. -/
  | null
  /-- Has no end to read and no room to write. -/
  | full
  | input
  | output
  | errors
  deriving DecidableEq, Repr

/-- What stands at a place. -/
inductive Entry where
  | directory
  | file (text : String)
  | device (d : Device)
  deriving DecidableEq, Repr

/-- A place: the names from the root down to it. -/
abbrev Place := List String

/-- A file system, seen from a directory in it. -/
structure FileSystem where
  /-- What stands at the places below the root. -/
  entries : List (Place × Entry)
  /-- Where paths start that do not start at the root. -/
  here : Place

namespace FileSystem

/-- What stands at a place; the root is a directory. -/
def entry? (fs : FileSystem) (place : Place) : Option Entry :=
  if place = [] then some .directory else (fs.entries.find? (·.1 == place)).map (·.2)

def put (fs : FileSystem) (place : Place) (text : String) : FileSystem :=
  { fs with entries := fs.entries.filter (·.1 != place) ++ [(place, .file text)] }

/-- The files right here, by name. -/
def files (fs : FileSystem) : List (String × String) :=
  fs.entries.filterMap fun
    | (place, .file text) =>
      match place.getLast? with
      | some name => if place.dropLast = fs.here then some (name, text) else none
      | none => none
    | _ => none

/-! ## Where paths lead -/

def maxName : Nat := 255

def maxPath : Nat := 4095

/-- The steps of a path that is not empty and not too long. -/
def steps (path : String) : Except FileError Path :=
  if path.isEmpty then .error .notFound
  else if maxPath < path.utf8ByteSize then .error .nameTooLong
  else .ok (Path.ofString path)

def below (dir : Place) (name : String) : Except FileError Place :=
  if maxName < name.utf8ByteSize then .error .nameTooLong else .ok (dir ++ [name])

def follow (fs : FileSystem) (dir : Place) (name : String) : Except FileError (Place × Entry) :=
  if name = "." then .ok (dir, .directory)
  else if name = ".." then .ok (dir.dropLast, .directory)
  else do
    let place ← below dir name
    match fs.entry? place with
    | some e => return (place, e)
    | none => throw .notFound

def enter (fs : FileSystem) (dir : Place) (name : String) : Except FileError Place := do
  match ← fs.follow dir name with
  | (place, .directory) => return place
  | _ => throw .notADirectory

/-- The directory in which the last name of a path is looked up. -/
def parent (fs : FileSystem) (path : Path) : Except FileError Place :=
  path.names.dropLast.foldlM fs.enter (if path.absolute then [] else fs.here)

/-- What stands where a path leads.  Only a directory may have a slash after its name. -/
def find (fs : FileSystem) (path : String) : Except FileError Entry := do
  let path ← steps path
  let dir ← fs.parent path
  match path.names.getLast? with
  | none => return .directory
  | some name =>
    match ← fs.follow dir name with
    | (_, .directory) => return .directory
    | (_, e) => if path.slash then throw .notADirectory else return e

/-- The place where a path puts a file.  A name with a slash after it could only be that of a
directory, whether there is one or not. -/
def target (fs : FileSystem) (path : String) : Except FileError Place := do
  let path ← steps path
  let dir ← fs.parent path
  match path.names.getLast? with
  | none => throw .isADirectory
  | some name =>
    if name = "." ∨ name = ".." ∨ path.slash then throw .isADirectory
    let place ← below dir name
    if fs.entry? place = some .directory then throw .isADirectory
    return place

end FileSystem

end MmixBackend.CommandLine
