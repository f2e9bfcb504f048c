import MmixBackend.Target.Coloring
import MmixBackend.Target.Spill

/-!
# Allocating registers

Rounds of colouring: the code is analysed and its graph coloured; if temporaries are left
without a colour they are spilled and another round follows on the new code.  There are at most
as many rounds as the code has temporaries.
-/

namespace MmixBackend

/-- A function with a register for each of its temporaries. -/
structure Allocation where
  /-- The code after the last round. -/
  code : Code
  registers : Table Temp Nat
  liveness : Liveness
  rounds : Nat

namespace Allocation

def register? (a : Allocation) (t : Temp) : Option Nat := a.registers[t]?

/-- Most bytes of spill slots in one function. -/
def maxSpillSize : Word := 1048576

end Allocation

def checkRegisters (k : Nat) : Build Unit :=
  if k < Register.least then throw (.config (.tooFew k Register.least))
  else if Register.firstGlobal ≤ k then throw (.config (.tooMany k (Register.firstGlobal - 1)))
  else pure ()

/-- The colours of a graph, and the register of the frame pointer. -/
def Interference.registers (g : Interference) (fp : Temp) : Table Temp Nat :=
  (g.vertices.filterMap fun _ v => v.color).insert fp Register.fp

namespace Code

/-- Spills temporaries one after another; `repair` collects the new ones. -/
def spillAll (c : Code) (repair : TempSet) : List Temp → Build (Code × TempSet)
  | [] => return (c, repair)
  | t :: ts => do
    let (c, offset, new) ← c.spill t
    Build.note (.spilled c.name t offset)
    spillAll c (new.foldl (·.insert ·) repair) ts

/-- Rounds of colouring, `remaining` of them, of which `round` are over. -/
def allocateRounds (k limit : Nat) : Nat → Nat → Code → TempSet → Build Allocation
  | 0, _, c, _ => throw (.exhausted c.loc c.name (.rounds limit))
  | remaining + 1, round, c, repair => do
    let live := c.liveness
    Build.note (.settled c.name live.passes)
    let g := c.interference live
    let (g, spills) := Interference.paint k g (g.simplify k repair)
    Build.note (.colored c.name (round + 1) g.size spills.length)
    if spills.isEmpty then
      return { code := c, registers := g.registers c.frame.fp, liveness := live,
               rounds := round + 1 }
    else
      let (c, repair) ← c.spillAll repair spills
      if Allocation.maxSpillSize < c.spillSize then
        throw (.exhausted c.loc c.name (.spillArea c.spillSize))
      else allocateRounds k limit remaining (round + 1) c repair

def allocate (c : Code) (k : Nat) : Build Allocation := do
  checkRegisters k
  let limit := max c.temps.size 1
  allocateRounds k limit limit 0 c ∅

end Code

end MmixBackend
