import MmixBackend.Target.Register

/-!
# Options

What the command line can ask for.  An option with a value takes it from the same argument, after
an equals sign or right after a short option's letter, or from the next argument, which then must
not look like an option.  No option may be given twice.
-/

namespace MmixBackend.CommandLine

/-- The last phase to run. -/
inductive Phase where
  /-- Intermediate code as trees. -/
  | lowering
  /-- Linear code. -/
  | linear
  /-- Abstract code. -/
  | selection
  /-- Liveness. -/
  | liveness
  /-- Registers. -/
  | allocation
  /-- Everything. -/
  | all
  deriving DecidableEq, Repr

def Phase.ofName? (s : String) : Option Phase :=
  if s = "imcgen" then some lowering
  else if s = "imclin" then some linear
  else if s = "asmgen" then some selection
  else if s = "livean" then some liveness
  else if s = "regall" then some allocation
  else if s = "all" then some all
  else none

/-- What was asked for, with defaults for the rest. -/
structure Options where
  input : String
  output : Option String := none
  registers : Nat := Register.standard
  phase : Phase := .all
  trace : Option String := none
  run : Bool := false
  debug : Bool := false
  deriving Repr

/-- What was given so far. -/
structure Given where
  input : Option String := none
  output : Option String := none
  registers : Option Nat := none
  phase : Option Phase := none
  trace : Option String := none
  run : Bool := false
  debug : Bool := false

inductive Request where
  | compile (options : Options)
  | help
  | usageError
  deriving Repr

/-- Why reading stops before the end. -/
inductive Stop where
  | help
  | usageError

inductive Key where
  | output
  | registers
  | phase
  | trace

/-- A number of registers: digits, perhaps after a plus sign, below 2⁶⁴. -/
def registers? (s : String) : Option Nat :=
  let digits := match s.toList with
    | '+' :: ds => ds
    | ds => ds
  if digits.isEmpty || !digits.all Char.isDigit then none
  else
    let n := digits.foldl (fun n d => n * 10 + (d.toNat - '0'.toNat)) 0
    if n < UInt64.size then some n else none

def once {α : Type} (old new : Option α) : Except Stop (Option α) :=
  match old, new with
  | none, some v => .ok (some v)
  | _, _ => .error .usageError

/-- A path, which must not be empty. -/
def path? (s : String) : Option String := if s.isEmpty then none else some s

def Given.set (g : Given) (key : Key) (value : String) : Except Stop Given :=
  match key with
  | .output => do return { g with output := ← once g.output (path? value) }
  | .registers => do return { g with registers := ← once g.registers (registers? value) }
  | .phase => do return { g with phase := ← once g.phase (Phase.ofName? value) }
  | .trace => do return { g with trace := ← once g.trace (path? value) }

def Given.positional (g : Given) (value : String) : Except Stop Given := do
  return { g with input := ← once g.input (path? value) }

def Given.flag (g : Given) (name : String) : Except Stop Given :=
  if name = "help" then .error .help
  else if name = "run" then if g.run then .error .usageError else .ok { g with run := true }
  else if name = "debug" then if g.debug then .error .usageError else .ok { g with debug := true }
  else .error .usageError

def Key.ofName? (s : String) : Option Key :=
  if s = "output" then some output
  else if s = "nregs" then some registers
  else if s = "target-phase" then some phase
  else if s = "trace" then some trace
  else none

/-- Does an argument look like an option?  A lone dash does not. -/
def looksLikeOption (s : String) : Bool :=
  match s.toList with
  | '-' :: _ :: _ => true
  | _ => false

/-- Reads arguments; `key` waits for its value. -/
def read : Given → Option Key → List String → Except Stop Given
  | g, none, [] => .ok g
  | _, some _, [] => .error .usageError
  | g, some key, arg :: args => do
    if looksLikeOption arg then .error .usageError
    else read (← g.set key arg) none args
  | g, none, arg :: args =>
    match arg.toList with
    | ['-', '-'] => args.foldlM Given.positional g
    | '-' :: '-' :: long => do
      let name := String.ofList (long.takeWhile (· ≠ '='))
      match long.dropWhile (· ≠ '='), Key.ofName? name with
      | _ :: value, some key => read (← g.set key (String.ofList value)) none args
      | _ :: _, none => .error .usageError
      | [], some key => read g (some key) args
      | [], none => read (← g.flag name) none args
    | '-' :: 'o' :: value => do
      match value with
      | [] => read g (some .output) args
      | '=' :: value => read (← g.set .output (String.ofList value)) none args
      | value => read (← g.set .output (String.ofList value)) none args
    | '-' :: 'h' :: _ => .error .help
    | '-' :: _ :: _ => .error .usageError
    | _ => do read (← g.positional arg) none args

def parse (args : List String) : Request :=
  match read {} none args with
  | .error .help => .help
  | .error .usageError => .usageError
  | .ok g =>
    match g.input with
    | none => .usageError
    | some input =>
      .compile { input, output := g.output, registers := g.registers.getD Register.standard,
                 phase := g.phase.getD .all, trace := g.trace, run := g.run, debug := g.debug }

def help : String :=
  "Back end of the PREV compiler: typed syntax trees to MMIX assembly\n\n" ++
  "Usage: prevc [OPTIONS] <INPUT>\n\n" ++
  "Arguments:\n  <INPUT>  Typed program as JSON\n\n" ++
  "Options:\n" ++
  "  -o, --output <OUTPUT>              " ++
  "Assembly output (defaults to the input path with an .mms extension)\n" ++
  "      --nregs <NREGS>                " ++
  "Number of registers available to the allocator [default: 8]\n" ++
  "      --target-phase <TARGET_PHASE>  " ++
  "Last phase to run [default: all] " ++
  "[possible values: imcgen, imclin, asmgen, livean, regall, all]\n" ++
  "      --trace <TRACE>                " ++
  "Write a JSON trace of the back end phases to this file\n" ++
  "      --run                          " ++
  "Interpret the linearized intermediate code, feeding it standard input, " ++
  "and print its exit value\n" ++
  "      --debug                        Log stage progress\n" ++
  "  -h, --help                         Print help\n"

end MmixBackend.CommandLine
