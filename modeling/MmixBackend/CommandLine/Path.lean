/-!
# Paths

A path is a text of names between slashes.  This module takes it apart in two ways: into the
names that lead to a place, and into a last name and its extension, from which the default name
of the output is made.
-/

namespace MmixBackend.CommandLine

/-- A path as the steps it takes. -/
structure Path where
  /-- Does it start at the root? -/
  absolute : Bool
  /-- The names in order, with the dots that stay in place or go up. -/
  names : List String
  /-- Does a slash follow the last name? -/
  slash : Bool
  deriving DecidableEq, Repr

/-- The steps of a path; slashes in a row count as one. -/
def Path.ofString (s : String) : Path where
  absolute := s.toList.head? = some '/'
  names := (s.splitOn "/").filter (· ≠ "")
  slash := s.toList.getLast? = some '/'

/-! ## Extensions -/

/-- A reversed path from the end of its last name on: slashes after the name and dots that stay
in place are no part of it. -/
def dropTail : List Char → List Char
  | '/' :: cs => dropTail cs
  | '.' :: '/' :: cs => dropTail cs
  | cs => cs

def lastName? (path : List Char) : Option (List Char) :=
  let name := ((dropTail path.reverse).takeWhile (· ≠ '/')).reverse
  if name = [] ∨ name = ['.'] ∨ name = ['.', '.'] then none else some name

/-- The extension of a name: what follows its last dot, unless that is the first character. -/
def extension? (name : List Char) : Option (List Char) :=
  match name.reverse.dropWhile (· ≠ '.') with
  | _ :: _ :: _ => some (name.reverse.takeWhile (· ≠ '.')).reverse
  | _ => none

/-- The part of a path up to the end of its last name, without the extension and its dot. -/
def uptoStem (path name : List Char) : List Char :=
  let upto := (dropTail path.reverse).reverse
  match extension? name with
  | some extension => upto.take (upto.length - (extension.length + 1))
  | none => upto

/-- A path with its extension replaced, or added if there is none.  The old extension is cut off
first and its dot stays; where that leaves no name but two dots, nothing is added. -/
def withExtension (path extension : String) : String :=
  let path := path.toList
  let cut := match lastName? path >>= extension? with
    | some old => path.take (path.length - old.length)
    | none => path
  match lastName? cut with
  | some name => String.ofList (uptoStem cut name) ++ "." ++ extension
  | none => String.ofList cut

end MmixBackend.CommandLine
