import MmixBackend.Target.Liveness

/-!
# Interference

Two temporaries interfere when one is written while the other is live: they need different
registers.  The frame pointer has a register of its own and takes no part.
-/

namespace MmixBackend

/-- What is known about a temporary in the graph. -/
structure Vertex where
  color : Option Nat := none
  /-- Was it set aside while every temporary had too many neighbours? -/
  potentialSpill : Bool := false
  /-- Was it left without a colour? -/
  spill : Bool := false
  neighbours : TempSet := ∅

structure Interference where
  vertices : Table Temp Vertex := ∅

namespace Interference

def addVertex (g : Interference) (t : Temp) : Interference :=
  if g.vertices.contains t then g else ⟨g.vertices.insert t {}⟩

/-- Makes two temporaries of the graph interfere; none does so with itself. -/
def addEdge (g : Interference) (a b : Temp) : Interference :=
  if a = b ∨ ¬ g.vertices.contains a ∨ ¬ g.vertices.contains b then g
  else
    let link (s t : Temp) (vs : Table Temp Vertex) :=
      vs.modify s fun v => { v with neighbours := v.neighbours.insert t }
    ⟨link b a (link a b g.vertices)⟩

def neighbours (g : Interference) (t : Temp) : TempSet :=
  match g.vertices[t]? with
  | some v => v.neighbours
  | none => ∅

def interferes (g : Interference) (a b : Temp) : Bool := (g.neighbours a).contains b

def degree (g : Interference) (t : Temp) : Nat := (g.neighbours t).size

def size (g : Interference) : Nat := g.vertices.size

/-- Adds the temporaries of an instruction apart from the frame pointer. -/
def addInstr (fp : Temp) (g : Interference) (i : Instr) : Interference :=
  (i.uses ++ i.defs).foldl (fun g t => if t = fp then g else g.addVertex t) g

/-- Makes what an instruction writes interfere with what is live after it. -/
def addDefs (fp : Temp) (g : Interference) (i : Instr) (liveOut : TempSet) : Interference :=
  i.defs.foldl
    (fun g d =>
      if d = fp then g
      else liveOut.toList.foldl (fun g o => if o = fp then g else g.addEdge d o) g)
    g

/-- Adds the interferences of instructions with the live temporaries after each. -/
def addFlow (fp : Temp) (g : Interference) : List (Instr × TempSet) → Interference
  | [] => g
  | (i, liveOut) :: rest => addFlow fp (g.addDefs fp i liveOut) rest

end Interference

def Code.interference (c : Code) (live : Liveness) : Interference :=
  let fp := c.frame.fp
  let g := c.instrs.foldl (Interference.addInstr fp) {}
  let g := if c.slots.contains c.frame.rv then g else g.addVertex c.frame.rv
  g.addFlow fp (c.instrs.zip live.liveOut.toList)

end MmixBackend
