import MmixBackend.Json.Basic
import MmixBackend.Target.Allocation

/-!
# Traces

A trace shows what became of a function: its instructions as text, the temporaries each one
reads and writes, and where they are known, the live ones around it.
-/

namespace MmixBackend

structure InstrTrace where
  code : String
  uses : List Temp
  defs : List Temp
  liveIn : List Temp := []
  liveOut : List Temp := []
  deriving Repr

structure Trace where
  name : String
  entry : String
  exit : String
  frameSize : Word
  spillSize : Word
  /-- Rounds of colouring, once registers are allocated. -/
  rounds : Option Nat := none
  instructions : List InstrTrace
  deriving Repr

namespace Trace

def instrsFrom (names : Names) (shown : Temp → String) (live : Liveness) :
    Nat → List Instr → List InstrTrace
  | _, [] => []
  | position, i :: is =>
    let text := i.text names shown
    { code := match i with
        | .label _ => text ++ ":"
        | _ => text
      uses := i.uses
      defs := i.defs
      liveIn := (live.liveIn.getD position ∅).toList
      liveOut := (live.liveOut.getD position ∅).toList } ::
        instrsFrom names shown live (position + 1) is

def build (names : Names) (c : Code) (shown : Temp → String) (live : Liveness)
    (rounds : Option Nat) : Trace :=
  { name := c.name, entry := names.textOf c.entry, exit := names.textOf c.exit,
    frameSize := c.frame.size, spillSize := c.spillSize, rounds,
    instructions := instrsFrom names shown live 0 c.instrs }

def ofCode (names : Names) (c : Code) (live : Option Liveness) : Trace :=
  build names c c.shown (live.getD {}) none

def ofAllocation (names : Names) (a : Allocation) : Trace :=
  let shown (t : Temp) := match a.register? t with
    | some r => Register.text r
    | none => t.text
  build names a.code shown a.liveness (some a.rounds)

def tempsJson (ts : List Temp) : Json := .arr (ts.map fun t => .str t.text)

/-- An instruction as JSON; liveness is left out where nothing is live. -/
def instrJson (i : InstrTrace) : Json :=
  let live (name : String) (ts : List Temp) : List (String × Json) :=
    if ts.isEmpty then [] else [(name, tempsJson ts)]
  .obj ([("code", .str i.code), ("use", tempsJson i.uses), ("def", tempsJson i.defs)] ++
    live "in" i.liveIn ++ live "out" i.liveOut)

def json (t : Trace) : Json :=
  let rounds : List (String × Json) := match t.rounds with
    | some n => [("rounds", .int n)]
    | none => []
  .obj ([("name", .str t.name), ("entryLabel", .str t.entry), ("exitLabel", .str t.exit),
      ("frameSize", .int t.frameSize.toInt), ("tempSize", .int t.spillSize.toInt)] ++ rounds ++
    [("instructions", .arr (t.instructions.map instrJson))])

end Trace

end MmixBackend
