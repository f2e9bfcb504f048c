import MmixBackend.CommandLine.Options
import MmixBackend.CommandLine.World
import MmixBackend.Compiler
import MmixBackend.Json.Reader
import MmixBackend.Json.Writer
import MmixBackend.Machine.Run
import MmixBackend.Target.Trace
import MmixBackend.Typed.Decode

/-!
# A run of the command line

What a run does to the world outside is a list of actions in order: texts to print and files to
write.  If a file cannot be written the actions after it are dropped.
-/

namespace MmixBackend.CommandLine

/-- Something done to the world outside. -/
inductive Action where
  | print (text : String)
  /-- Writes a file; `purpose` says what for. -/
  | write (purpose path text : String)

/-- How a run ends once its actions are done. -/
inductive Ending where
  | done
  | failed (message : String)
  /-- The program went out of its arithmetic's range. -/
  | crashed (cause : Overflow)

/-- The work on a program: the compiler's names and notes, and the actions, latest first. -/
structure Desk where
  session : Session := {}
  actions : List Action := []

abbrev Work := EStateM Ending Desk

namespace Work

def print (text : String) : Work Unit :=
  modify fun d => { d with actions := .print text :: d.actions }

def printLines (lines : List String) : Work Unit :=
  print (String.join (lines.map (· ++ "\n")))

def write (purpose path text : String) : Work Unit :=
  modify fun d => { d with actions := .write purpose path text :: d.actions }

def ending : Failure → Ending
  | .overflow cause => .crashed cause
  | f => .failed f.message

def compile {α : Type} (x : Build α) : Work α := fun d =>
  match x.run d.session with
  | .ok a session => .ok a { d with session }
  | .error f session => .error (ending f) { d with session }

def names : Work Names := return (← get).session.names

/-- Runs the intermediate code on an input, if it can be read, and shows what came out. -/
def interpret (chunks : Chunks) (input : Except String (List UInt8)) : Work Unit := do
  match Machine.runReading {} (← names) chunks input with
  | (_, .error (.overflow cause)) => throw (.crashed cause)
  | (_, .error f) => throw (.failed ("interpreting intermediate code: " ++ f.message))
  | (notes, .ok outcome) =>
    modify fun d =>
      { d with session := { d.session with notes := notes ++ d.session.notes } }
    print (outcome.text ++ "exit: " ++ Word.text outcome.exit ++ "\n")

def traces (path : Option String) (ts : List Trace) : Work Unit :=
  match path with
  | some path => write "writing trace" path ((Json.arr (ts.map (·.json))).pretty "")
  | none => pure ()

end Work

open Typed

/-- The functions of a program, each before the ones declared in it. -/
def allFunctions (p : Program) : List (Head × Option Expr) :=
  p.decls.flatMap fun
    | .var _ => []
    | .foreign head => [(head, none)]
    | .fn head body => (head, some body) :: body.throughout.flatMap (·.declared)

def loweringLines (p : Program) (code : Lowered) (names : Names) : List String :=
  (allFunctions p).flatMap fun
    | (_, none) => []
    | (head, some body) =>
      [head.name ++ ":",
       match code.exprs[body.id]? with
        | some e => "  " ++ e.text names
        | none => "  <not translated>"]

def work (o : Options) (source : String) (input : Except String (List UInt8)) : Work Unit := do
  let some p := Json.parse 127 source >>= Program.ofJson?
    | throw (.failed ("parsing typed program '" ++ o.input ++ "'"))
  let compiled ← Work.compile p.compile
  if o.phase = .lowering then
    return ← Work.printLines (loweringLines p compiled.code (← Work.names))
  if o.run then Work.interpret compiled.chunks input
  if o.phase = .linear then
    return ← Work.printLines (compiled.chunks.lines (← Work.names))
  let codes ← Work.compile (compiled.chunks.select o.registers)
  let names ← Work.names
  if o.phase = .selection ∨ o.phase = .liveness then
    Work.printLines (codes.flatMap fun c => (c.name ++ ":") :: c.lines names)
    let live (c : Code) := if o.phase = .liveness then some c.liveness else none
    return ← Work.traces o.trace (codes.map fun c => Trace.ofCode names c (live c))
  let functions ← Work.compile (allocateAll codes o.registers)
  let names ← Work.names
  let ts := functions.map (Trace.ofAllocation names)
  Work.traces o.trace ts
  if o.phase = .allocation then
    return ← Work.printLines (ts.flatMap fun t =>
      (t.name ++ ":") :: t.instructions.map fun i => "        " ++ i.code)
  let lines ← Work.compile (Assembly.program compiled.chunks.data functions o.registers)
  Work.write "writing" (o.output.getD (withExtension o.input "mms")) (Assembly.text lines)

/-- The actions of a run in order, its end, and the notes left on the way, latest first. -/
structure Plan where
  actions : List Action
  ending : Ending
  notes : List Note := []

def plan (o : Options) (source : String) (input : Except String (List UInt8)) : Plan :=
  match (work o source input).run {} with
  | .ok _ d => { actions := d.actions.reverse, ending := .done, notes := d.session.notes }
  | .error e d => { actions := d.actions.reverse, ending := e, notes := d.session.notes }

def fileReport (purpose path reason : String) : String :=
  purpose ++ " '" ++ path ++ "': " ++ reason

/-! ## In a world -/

/-- How a run ends, and the world it leaves behind. -/
structure Report where
  status : Nat
  failure : Option String := none
  world : World

def carryOut (ending : Ending) : List Action → World → Report
  | [], world =>
    match ending with
    | .done => { status := 0, world }
    | .failed message => { status := 1, failure := some message, world }
    | .crashed _ => { status := 101, world }
  | .print text :: actions, world => carryOut ending actions (world.print text)
  | .write purpose path text :: actions, world =>
    match world.write path text with
    | .ok world => carryOut ending actions world
    | .error e => { status := 1, failure := some (fileReport purpose path e.message), world }

def runIn (world : World) (args : List String) : Report :=
  match parse args with
  | .usageError => { status := 2, world }
  | .help => { status := 0, world := world.print help }
  | .compile o =>
    match world.read o.input with
    | .error e =>
      { status := 1, failure := some (fileReport "reading" o.input e.message), world }
    | .ok (source, world) =>
      let p := plan o source (.ok world.input)
      carryOut p.ending p.actions world

end MmixBackend.CommandLine
