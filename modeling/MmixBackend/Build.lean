import MmixBackend.Failure
import MmixBackend.Note

/-!
# Building code

The passes of the compiler draw fresh names, leave notes and may fail.  What was drawn and noted
before a failure stays, so that the notes tell how far the compilation came.
-/

namespace MmixBackend

/-- What the passes share: the names handed out and the notes left, the latest first. -/
structure Session where
  names : Names := {}
  notes : List Note := []
  deriving Inhabited

/-- A pass of the compiler. -/
abbrev Build := EStateM Failure Session

namespace Build

def newTemp : Build Temp :=
  modifyGet fun s => let (t, names) := s.names.newTemp; (t, { s with names })

def newLabel : Build Label :=
  modifyGet fun s => let (l, names) := s.names.newLabel; (l, { s with names })

def namedLabel (name : String) : Build Label :=
  modifyGet fun s => let (l, names) := s.names.named name; (l, { s with names })

def textOf (l : Label) : Build String := do return (← get).names.textOf l

def note (n : Note) : Build Unit := modify fun s => { s with notes := n :: s.notes }

def defect {α : Type} (loc : Location) (d : Defect) : Build α := throw (.internal loc d)

def exactly {α : Type} (x : Except Overflow α) : Build α :=
  match x with
  | .ok a => pure a
  | .error cause => throw (.overflow cause)

end Build

end MmixBackend
