import MmixBackend.Target.Instr

/-!
# Liveness

A temporary is live where its value may still be read.  Liveness flows backward: what is live
after an instruction is what is live before its successors, and what is live before it is what
it reads and what is live after it and not written by it.  Beyond the exit label the return
value is read, unless it was spilled.

A pass goes over the instructions once, the last one first, and works with what it has already
found.  Starting from nothing, passes are repeated until one changes nothing.
-/

namespace MmixBackend

/-- Where control may go after an instruction. -/
inductive Successor where
  | instr (position : Nat)
  | exit
  deriving DecidableEq, Repr

/-- What a pass looks up in a function's code. -/
structure Flow where
  instrs : Array Instr
  successors : Array (List Successor)
  /-- What is live beyond the exit label. -/
  atExit : TempSet

/-- The live temporaries before and after each instruction. -/
structure Liveness where
  liveIn : Array TempSet := #[]
  liveOut : Array TempSet := #[]
  /-- Number of passes made. -/
  passes : Nat := 0

namespace Code

/-- The positions of labels in instructions that start at a position; of a repeated label, the
last. -/
def labelsFrom (position : Nat) (found : Table Label Nat) : List Instr → Table Label Nat
  | [] => found
  | .label l :: is => labelsFrom (position + 1) (found.insert l position) is
  | _ :: is => labelsFrom (position + 1) found is

/-- Where control may go from a label: out, to its position, or nowhere if it is unknown. -/
def target? (c : Code) (labels : Table Label Nat) (l : Label) : Option Successor :=
  if l = c.exit then some .exit else labels[l]?.map .instr

def successorsAt (c : Code) (labels : Table Label Nat) (length position : Nat) (i : Instr) :
    List Successor :=
  if i.jumps.isEmpty || i.isCall then
    if position + 1 < length then [.instr (position + 1)] else []
  else i.jumps.filterMap (c.target? labels)

/-- What the epilogue reads. -/
def liveAtExit (c : Code) : TempSet :=
  if c.slots.contains c.frame.rv then ∅ else (∅ : TempSet).insert c.frame.rv

def flow (c : Code) : Flow :=
  let labels := labelsFrom 0 ∅ c.instrs
  let length := c.instrs.length
  { instrs := c.instrs.toArray
    successors := (c.instrs.mapIdx fun i instr => c.successorsAt labels length i instr).toArray
    atExit := c.liveAtExit }

end Code

namespace Flow

def liveAt (f : Flow) (liveIn : Array TempSet) : Successor → TempSet
  | .instr position => liveIn.getD position ∅
  | .exit => f.atExit

/-- What is live after an instruction with the given successors. -/
def out (f : Flow) (liveIn : Array TempSet) (successors : List Successor) : TempSet :=
  successors.foldl (fun s succ => s ∪ f.liveAt liveIn succ) ∅

end Flow

/-- What is live before an instruction, from what is live after it. -/
def Instr.through (i : Instr) (out : TempSet) : TempSet :=
  i.uses.foldl (·.insert ·) (i.defs.foldl (·.erase ·) out)

namespace Liveness

/-- As many sets as there are instructions, empty where there were none. -/
def resize (n : Nat) (sets : Array TempSet) : Array TempSet :=
  sets.extract 0 n ++ Array.replicate (n - sets.size) ∅

/-- One pass over the first `n` instructions, backward; also tells whether a set changed. -/
def sweep (f : Flow) : Nat → Bool → Liveness → Bool × Liveness
  | 0, changed, live => (changed, live)
  | i + 1, changed, live =>
    match f.instrs[i]? with
    | none => sweep f i changed live
    | some instr =>
      let out := f.out live.liveIn (f.successors.getD i [])
      let inn := instr.through out
      if out = live.liveOut.getD i ∅ ∧ inn = live.liveIn.getD i ∅ then sweep f i changed live
      else
        sweep f i true
          { live with
            liveIn := live.liveIn.setIfInBounds i inn
            liveOut := live.liveOut.setIfInBounds i out }

/-- One pass; also tells whether a set changed. -/
def refine (live : Liveness) (f : Flow) : Bool × Liveness :=
  let n := f.instrs.size
  sweep f n false
    { liveIn := resize n live.liveIn, liveOut := resize n live.liveOut, passes := live.passes + 1 }

/-- Passes until one changes nothing, at most so many. -/
def iterate (f : Flow) : Nat → Liveness → Liveness
  | 0, live => live
  | bound + 1, live =>
    let (changed, live) := live.refine f
    if changed then iterate f bound live else live

end Liveness

namespace Code

/-- More passes than it can take: each but the last puts a temporary into a set that lacked
it. -/
def passBound (c : Code) : Nat := 2 * c.instrs.length * c.temps.size + 1

def liveness (c : Code) : Liveness := Liveness.iterate c.flow c.passBound {}

end Code

end MmixBackend
