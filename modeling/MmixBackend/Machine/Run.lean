import MmixBackend.Machine.Step

/-!
# Running a program

A run starts at an entry function and ends with its result, with a fault, or at a limit.  Each
step counts against the step limit, so a run always ends: the limit is what the loop recurses
on.
-/

namespace MmixBackend.Machine

/-- Bounds on a run, and whether to keep its notes. -/
structure Settings where
  stepLimit : Nat := 10000000
  callDepth : Nat := 100000
  traced : Bool := false

/-- What a run leaves behind. -/
structure Outcome where
  exit : Word
  output : List UInt8
  deriving DecidableEq, Repr

def Outcome.text (o : Outcome) : String := Text.ofOctets o.output

/-- Runs until the end with `remaining` steps to go.  Gives the notes, latest first, and on
success the steps that were left, the exit value and the output. -/
def loop (image : Image) (settings : Settings) :
    Nat → List Note → State → List Note × Except Fault (Nat × Outcome)
  | remaining, notes, s =>
    match s.top.current?, remaining with
    | none, _ => (notes, .error (.malformed s.top.name .fellOff))
    | some _, 0 => (notes, .error (.stepLimit settings.stepLimit))
    | some stmt, remaining + 1 =>
      let (new, progress) := step image settings.callDepth s stmt
      let notes := if settings.traced then new ++ notes else notes
      match progress with
      | .running s => loop image settings remaining notes s
      | .halted exit w => (notes, .ok (remaining, { exit, output := w.output.reverse }))
      | .faulted f => (notes, .error f)

def entryBody (image : Image) (entry : String) : Except Fault Body :=
  match image.names.lookup entry >>= (image.bodies[·]?) with
  | some body => .ok body
  | none => .error (.missingEntry entry)

/-- Runs a program from an entry function on the given input.  The notes come latest first. -/
def runFrom (settings : Settings) (names : Names) (chunks : Chunks) (entry : String)
    (input : List UInt8) : List Note × Except Fault Outcome :=
  let start : Except Fault (Image × State × Note) := do
    let (image, m) ← exactly (load names chunks)
    let body ← entryBody image entry
    let world : World :=
      { memory := m.store stackStart 0, sp := stackStart, hp := heapStart, input, output := [] }
    let (world, top) ← exactly (enter world body 1)
    return (image, { world, top, callers := [] }, .entered top.name top.savedSp)
  match start with
  | .error f => ([], .error f)
  | .ok (image, s, note) =>
    match loop image settings settings.stepLimit (if settings.traced then [note] else []) s with
    | (notes, .error f) => (notes, .error f)
    | (notes, .ok (remaining, o)) =>
      (.halted entry o.exit (settings.stepLimit - remaining) :: notes, .ok o)

/-- Runs a program from `_main` on all of its input, which is read first. -/
def runReading (settings : Settings) (names : Names) (chunks : Chunks) :
    Except String (List UInt8) → List Note × Except Fault Outcome
  | .ok input => runFrom settings names chunks "_main" input
  | .error reason => ([], .error (.input reason))

def run (settings : Settings) (names : Names) (chunks : Chunks) (entry : String)
    (input : List UInt8) : Except Fault Outcome :=
  (runFrom settings names chunks entry input).2

end MmixBackend.Machine
