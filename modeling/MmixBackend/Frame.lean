import MmixBackend.Names
import MmixBackend.Typed.Id
import MmixBackend.Word

/-!
# Frames and places in memory

A running function owns a frame of the stack, reached through its frame pointer FP; below the
frame the stack pointer SP has the area for the arguments of the calls it makes.

    FP + 8 …                      parameters, in the caller's area for arguments
    FP + 0                        static link, and the return value on return
    FP - locals … FP              local variables
    FP - locals - 8               saved FP
    FP - locals - 16              saved return address
    …                             spill slots
    SP … SP + arguments           arguments of the calls this function makes
-/

namespace MmixBackend

structure Frame where
  label : Label
  /-- Number of functions around this one. -/
  depth : Nat
  /-- Bytes of local variables. -/
  locals : Word
  /-- Bytes of the area for arguments. -/
  arguments : Word
  /-- Bytes from SP to FP without spill slots. -/
  size : Word
  /-- Holds the frame pointer. -/
  fp : Temp
  /-- Holds the return value. -/
  rv : Temp
  deriving Repr, Inhabited

/-- A frame of the size that its parts and the two saved registers take. -/
def Frame.make (label : Label) (depth : Nat) (locals arguments : Word) (fp rv : Temp) :
    Except Overflow Frame := do
  let parts ← Word.checkedAdd locals arguments
  let size ← Word.checkedAdd parts 16
  return { label, depth, locals, arguments, size, fp, rv }

/-- The depth of the functions declared right inside of one; depths are counted in 64 bits. -/
def Frame.depthInside (f : Frame) : Except Overflow Nat :=
  if f.depth + 1 < UInt64.size then .ok (f.depth + 1) else .error .add

/-- Where a variable, a parameter, a component or a literal is. -/
inductive Access where
  /-- At an address of its own, with the text of a literal. -/
  | absolute (label : Label) (size : Word) (init : Option String)
  /-- At an offset from the frame pointer of the function at a depth; for a component, at an
  offset from the start of its record. -/
  | relative (offset : Word) (depth : Nat)
  deriving Repr, Inhabited

/-- Where everything in a program is. -/
structure Layout where
  frames : Table DeclId Frame := ∅
  accesses : Table DeclId Access := ∅
  /-- The literals, by the node they stand at. -/
  literals : Table NodeId Access := ∅

end MmixBackend
