import MmixBackend.Build
import MmixBackend.Target.Instr

/-!
# Spilling

A temporary that gets no register lives in a slot of the frame.  Each instruction that reads it
first loads it into a new temporary, and each one that writes it writes a new temporary, which
is stored afterwards.  The offset of the slot goes through a temporary too.
-/

namespace MmixBackend

/-- An instruction with a temporary replaced where it is read and where it is written. -/
def Instr.replace (t : Temp) (read written : Temp) : Instr → Instr
  | .oper op uses defs jumps =>
    .oper op (uses.map fun u => if u = t then read else u)
      (defs.map fun d => if d = t then written else d) jumps
  | .move op dst src =>
    .move op (if dst = t then written else dst) (if src = t then read else src)
  | .label l => .label l

/-- A temporary that is spilled to an offset from the frame pointer. -/
structure Spill where
  temp : Temp
  fp : Temp
  offset : Word

namespace Spill

/-- The instructions for one instruction, and the temporaries that are new. -/
def instr (s : Spill) (i : Instr) : Build (List Instr × List Temp) := do
  let used := i.uses.contains s.temp
  let defined := i.defs.contains s.temp
  let (before, read, new) ← if used then do
      let offset ← Build.newTemp
      let value ← Build.newTemp
      pure (loadConstant offset s.offset ++ [.oper .loadSum [s.fp, offset] [value] []], value,
        [offset, value])
    else pure ([], s.temp, [])
  if defined then
    let value ← Build.newTemp
    let offset ← Build.newTemp
    return (before ++ i.replace s.temp read value :: (loadConstant offset s.offset ++
      [.oper .storeSum [value, s.fp, offset] [] []]), new ++ [value, offset])
  else return (before ++ [i.replace s.temp read s.temp], new)

/-- The instructions for instructions in order, and the temporaries that are new. -/
def instrs (s : Spill) : List Instr → Build (List Instr × List Temp)
  | [] => return ([], [])
  | i :: is => do
    let (code, new) ← s.instr i
    let (rest, more) ← s.instrs is
    return (code ++ rest, new ++ more)

end Spill

/-- The offset of the next spill slot, and the bytes that the slots then take. -/
def Code.nextSlot (c : Code) : Except Overflow (Word × Word) := do
  let spillSize ← Word.checkedAdd c.spillSize Word.size
  let below ← Word.checkedNeg c.frame.locals
  let below ← Word.checkedSub below spillSize
  let offset ← Word.checkedSub below 16
  return (offset, spillSize)

/-- The code with a temporary spilled to the next slot, the slot's offset, and the temporaries
that are new. -/
def Code.spill (c : Code) (t : Temp) : Build (Code × Word × List Temp) := do
  let (offset, spillSize) ← Build.exactly c.nextSlot
  let (instrs, new) ← Spill.instrs { temp := t, fp := c.frame.fp, offset } c.instrs
  return ({ c with instrs, spillSize, slots := c.slots.insert t offset }, offset, new)

end MmixBackend
