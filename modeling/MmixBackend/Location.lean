/-!
# Source locations

Where in the source text a node or a declaration stands.  A location only ever shows up in
reports.
-/

namespace MmixBackend

/-- A line and a column of the source text. -/
structure Location where
  line : UInt64 := 0
  column : UInt64 := 0
  deriving DecidableEq, Repr, Inhabited

/-- `line:column`. -/
def Location.text (l : Location) : String :=
  toString l.line.toNat ++ ":" ++ toString l.column.toNat

end MmixBackend
