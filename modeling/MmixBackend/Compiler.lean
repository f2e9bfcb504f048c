import MmixBackend.Target.Assembly
import MmixBackend.Target.Selection

/-!
# The compiler

The passes put together: a typed program is laid out, lowered and split into chunks; the code
chunks become abstract code, get registers and end up as assembly.
-/

namespace MmixBackend

/-- A program in intermediate code, with everything that led to it. -/
structure Compiled where
  layout : Layout
  code : Lowered
  chunks : Chunks

def Typed.Program.compile (p : Typed.Program) : Build Compiled := do
  let layout ← p.layout
  let code ← p.lower layout
  let chunks ← p.chunks layout code
  return { layout, code, chunks }

def Chunks.select (c : Chunks) (registers : Nat) : Build (List Code) := do
  checkRegisters registers
  c.code.mapM (·.select registers)

def allocateAll (codes : List Code) (registers : Nat) : Build (List Allocation) :=
  codes.mapM (·.allocate registers)

def Chunks.assemble (c : Chunks) (registers : Nat) : Build (List String) := do
  let codes ← c.select registers
  let functions ← allocateAll codes registers
  Assembly.program c.data functions registers

def Typed.Program.assemble (p : Typed.Program) (registers : Nat) : Build (List String) := do
  let c ← p.compile
  c.chunks.assemble registers

end MmixBackend
