import MmixBackend.Chunk
import MmixBackend.Target.Allocation
import MmixBackend.Target.Mmix
import MmixBackend.Text.Utf8

/-!
# Programs in assembly

A program consists of the global registers, the buffers for input and output, the data, the
start-up code, the functions, and the functions that the machine provides.

A function starts by saving the caller's frame pointer and the return address in its frame and
moving SP below it.  It ends by storing its result at the frame pointer, where the caller's SP
will be again, and undoing the start.
-/

namespace MmixBackend.Assembly

/-! ## Functions -/

/-- Saves the frame pointer at the offset in `$0` from the stack pointer and the return address
below it; the stack pointer becomes the frame pointer. -/
def saving : List Mmix.Instr :=
  [{ op := .add, args := [.reg 0, .reg Register.sp, .reg 0] },
   { op := .sto, args := [.reg Register.fp, .reg 0, .num 0] },
   { op := .sub, args := [.reg 0, .reg 0, .num 8] },
   { op := .get, args := [.reg 1, .sym "rJ"] },
   { op := .sto, args := [.reg 1, .reg 0, .num 0] },
   { op := .set, args := [.reg Register.fp, .reg Register.sp] }]

/-- Moves the stack pointer down by what is in `$0`. -/
def lowering : List Mmix.Instr :=
  [{ op := .sub, args := [.reg Register.sp, .reg Register.sp, .reg 0] }]

/-- Saves what the caller needs and makes room for the frame. -/
def prologue (names : Names) (c : Code) : Except Overflow (List Mmix.Instr) := do
  let below ← Word.checkedNeg c.frame.locals
  let saved ← Word.checkedSub below Word.size
  let room ← Word.checkedAdd c.frame.size c.spillSize
  return Mmix.loadValue (some (names.textOf c.frame.label)) saved ++ saving ++
    Mmix.loadValue none room ++ lowering ++
    [{ op := .jmp, args := [.sym (names.textOf c.entry)] }]

/-- Stores the return value, which is in a register or in a slot. -/
def storeResult (exit : String) (a : Allocation) : Option (List Mmix.Instr) :=
  let rv := a.code.frame.rv
  match a.register? rv, a.code.slots[rv]? with
  | some r, _ =>
    some [{ label := some exit, op := .sto, args := [.reg r, .reg Register.fp, .num 0] }]
  | none, some slot =>
    some (Mmix.loadValue (some exit) slot ++
      [{ op := .ldo, args := [.reg 0, .reg Register.fp, .reg 0] },
       { op := .sto, args := [.reg 0, .reg Register.fp, .num 0] }])
  | none, none => none

/-- Takes the return address from the offset in `$0`; the stack pointer becomes the frame
pointer. -/
def returning : List Mmix.Instr :=
  [{ op := .ldo, args := [.reg 0, .reg Register.fp, .reg 0] },
   { op := .put, args := [.sym "rJ", .reg 0] },
   { op := .set, args := [.reg Register.sp, .reg Register.fp] }]

/-- Takes the caller's frame pointer from the offset in `$0` and returns. -/
def leaving : List Mmix.Instr :=
  [{ op := .ldo, args := [.reg Register.fp, .reg Register.fp, .reg 0] },
   { op := .pop, args := [.num 0, .num 0] }]

/-- Gives the caller back what it needs and returns. -/
def restore (c : Code) : Except Overflow (List Mmix.Instr) := do
  let below ← Word.checkedNeg c.frame.locals
  let savedJ ← Word.checkedSub below 16
  let savedFp ← Word.checkedSub below Word.size
  return Mmix.loadValue none savedJ ++ returning ++ Mmix.loadValue none savedFp ++ leaving

/-- A line that does nothing, to hold a label. -/
def filler (label : String) : Mmix.Line := { label := some label, op := "SET", args := "$0,$0" }

def unallocated? (a : Allocation) (i : Instr) : Option Temp :=
  (i.uses ++ i.defs).find? fun t => !a.registers.contains t

def instrText (names : Names) (a : Allocation) (i : Instr) : String :=
  i.text names fun t => Register.text (a.registers.getD t 0)

def splitBlank (s : String) : String × String :=
  let cs := s.toList
  (String.ofList (cs.takeWhile (· ≠ ' ')), String.ofList ((cs.dropWhile (· ≠ ' ')).drop 1))

def instrLine (names : Names) (a : Allocation) (label : Option String) (i : Instr) : Mmix.Line :=
  let (op, args) := splitBlank (instrText names a i)
  { label, op, args }

/-- The lines of instructions.  A label waits for the next instruction; one that meets another
label, or the end, gets a filler. -/
def bodyFrom (names : Names) (a : Allocation) :
    Option String → List Instr → Except Defect (List Mmix.Line)
  | waiting, [] => .ok (waiting.toList.map filler)
  | waiting, .label l :: is => do
    let rest ← bodyFrom names a (some (names.textOf l)) is
    return waiting.toList.map filler ++ rest
  | waiting, i :: is =>
    match unallocated? a i with
    | some t => .error (.noRegister t a.code.name)
    | none => do
      let rest ← bodyFrom names a none is
      return instrLine names a waiting i :: rest

def body (names : Names) (a : Allocation) : Except Defect (List Mmix.Line) :=
  bodyFrom names a none a.code.instrs

def function (names : Names) (a : Allocation) : Build (List Mmix.Line) := do
  let start ← Build.exactly (prologue names a.code)
  let lines ← match body names a with
    | .ok lines => pure lines
    | .error d => Build.defect a.code.loc d
  let stored ← match storeResult (names.textOf a.code.exit) a with
    | some is => pure is
    | none => Build.defect a.code.loc (.noReturnValue a.code.name)
  let finish ← Build.exactly (restore a.code)
  return start.map (·.line) ++ lines ++ (stored ++ finish).map (·.line)

/-! ## The fixed parts -/

/-- A row of a program: a line, or a text without a label. -/
inductive Row where
  | line (l : Mmix.Line)
  | remark (s : String)

def Row.text : Row → String
  | line l => l.text
  | remark s => s

def directive (op args : String) (label : Option String := none) : Mmix.Line := { label, op, args }

def comment (s : String) : String := "% " ++ s

def datum (names : Names) (d : DataChunk) : List Mmix.Line :=
  let label := some (names.textOf d.label)
  match d.init with
  | some text =>
    let octets := (Text.octets text).map fun b => toString b.toNat
    [directive "OCTA" (String.intercalate "," (octets ++ ["0"])) label]
  | none =>
    directive "OCTA" "0" label ::
      if Word.size < d.size then [directive "LOC" ("@+" ++ Word.text (d.size - Word.size))]
      else []

def globalRegisters : List Mmix.Line :=
  [directive "GREG" "#6000000000000000" (some "SP"),
   directive "GREG" "#0" (some "FP"),
   directive "GREG" "#3000000000000000" (some "HP")]

/-- The start of the data segment. -/
def dataSegment : List Mmix.Line := [directive "LOC" "Data_Segment", directive "GREG" "@"]

/-- The buffers for output and input, and the words that say where a line is to be read. -/
def buffers : List Mmix.Line :=
  [directive "BYTE" "0" (some "OutBuf"),
   directive "BYTE" "0",
   directive "IS" "100" (some "InSize"),
   directive "OCTA" "0" (some "InBuf"),
   directive "LOC" "InBuf+InSize",
   directive "OCTA" "InBuf,InSize" (some "InArgs")]

/-- Calls the entry function and ends with its result. -/
def startUp (registers : Nat) : List Mmix.Instr :=
  [{ label := some "Main", op := .put, args := [.sym "rG", .num Register.firstGlobal] },
   { op := .pushj, args := [.reg registers, .sym "_main"] },
   { op := .ldo, args := [.reg Register.scratch, .reg Register.sp, .num 0] },
   { op := .trap, args := [.num 0, .sym "Halt", .num 0] }]

/-- Global registers, buffers, data and the start-up code. -/
def bootstrap (names : Names) (data : List DataChunk) (registers : Nat) : List Row :=
  [Row.remark (comment "Global registers")] ++ globalRegisters.map Row.line ++
  [Row.remark ""] ++ dataSegment.map Row.line ++
  [Row.remark "", Row.remark (comment "I/O buffers")] ++ buffers.map Row.line ++
  [Row.remark "", Row.remark (comment "Global variables and string literals")] ++
  (data.flatMap (datum names)).map Row.line ++
  [Row.remark "", Row.line (directive "LOC" "#100"), Row.remark (comment "Bootstrap")] ++
  (startUp registers).map (Row.line ·.line)

/-- Allocates a block: its address is the heap pointer, which moves past it. -/
def new : List Mmix.Instr :=
  [{ label := some "_new", op := .ldo, args := [.reg 0, .reg Register.sp, .num 8] },
   { op := .sto, args := [.reg Register.hp, .reg Register.sp, .num 0] },
   { op := .add, args := [.reg Register.hp, .reg Register.hp, .reg 0] },
   { op := .pop, args := [.num 0, .num 0] }]

/-- Releases a block, which takes nothing. -/
def del : List Mmix.Instr := [{ label := some "_del", op := .pop, args := [.num 0, .num 0] }]

/-- Writes a character through the output buffer. -/
def putc : List Mmix.Instr :=
  [{ label := some "_putc", op := .lda, args := [.reg Register.scratch, .sym "OutBuf"] },
   { op := .ldo, args := [.reg 0, .reg Register.sp, .num 8] },
   { op := .stb, args := [.reg 0, .reg Register.scratch, .num 0] },
   { op := .trap, args := [.num 0, .sym "Fputs", .sym "StdOut"] },
   { op := .pop, args := [.num 0, .num 0] }]

/-- Reads a character through the input buffer. -/
def getc : List Mmix.Instr :=
  [{ label := some "_getc", op := .lda, args := [.reg 0, .sym "InBuf"] },
   { op := .set, args := [.reg 1, .num 0] },
   { op := .sto, args := [.reg 1, .reg 0, .num 0] },
   { op := .lda, args := [.reg Register.scratch, .sym "InArgs"] },
   { op := .trap, args := [.num 0, .sym "Fgets", .sym "StdIn"] },
   { op := .ldb, args := [.reg 1, .reg 0, .num 0] },
   { op := .sto, args := [.reg 1, .reg Register.sp, .num 0] },
   { op := .pop, args := [.num 0, .num 0] }]

def runtime : List Row :=
  [Row.remark "", Row.remark (comment "Runtime")] ++
    (new ++ del ++ putc ++ getc).map (Row.line ·.line)

/-! ## Programs -/

/-- The rows of functions, each below its name. -/
def functions (names : Names) : List Allocation → Build (List Row)
  | [] => return []
  | a :: as => do
    let lines ← function names a
    let rest ← functions names as
    return Row.remark "" :: Row.remark (comment ("function " ++ a.code.name)) ::
      (lines.map Row.line ++ rest)

def isMain (names : Names) (a : Allocation) : Bool :=
  names.lookup "_main" == some a.code.frame.label

/-- The rows of a program. -/
def listing (data : List DataChunk) (fs : List Allocation) (registers : Nat) :
    Build (List Row) := do
  let names := (← get).names
  if !fs.any (isMain names) then throw .missingEntry
  let code ← functions names fs
  let rows := bootstrap names data registers ++ code ++ runtime
  Build.note (.assembled fs.length data.length rows.length)
  return rows

def program (data : List DataChunk) (fs : List Allocation) (registers : Nat) :
    Build (List String) := do
  let rows ← listing data fs registers
  return rows.map (·.text)

def text (lines : List String) : String := String.intercalate "\n" lines ++ "\n"

end MmixBackend.Assembly
