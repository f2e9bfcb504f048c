import MmixBackend.Frame
import MmixBackend.Location
import MmixBackend.Operator
import MmixBackend.Target.Mmix
import MmixBackend.Target.Template
import Std.Data.ExtTreeSet

/-!
# Abstract instructions

Instructions over temporaries.  An instruction lists the temporaries it reads, those it writes,
and the labels it may jump to; its operation says what it does and has a template for its text.
-/

namespace MmixBackend

/-- A finite set of temporaries. -/
abbrev TempSet := Std.ExtTreeSet Temp compare

/-- How a comparison is turned into a truth value. -/
inductive Test where
  | zero
  | nonzero
  | negative
  | positive
  | nonpositive
  | nonnegative
  deriving DecidableEq, Repr

def Test.opcode : Test → Mmix.Opcode
  | zero => .zsz
  | nonzero => .zsnz
  | negative => .zsn
  | positive => .zsp
  | nonpositive => .zsnp
  | nonnegative => .zsnn

/-- An operation on two registers. -/
inductive Arith where
  | or
  | and
  | add
  | sub
  | mul
  | div
  deriving DecidableEq, Repr

def Arith.opcode : Arith → Mmix.Opcode
  | or => .or
  | and => .and
  | add => .add
  | sub => .sub
  | mul => .mul
  | div => .div

/-- What an instruction does. -/
inductive Op where
  /-- The address of a label. -/
  | address (name : String)
  /-- The word at an address. -/
  | load
  /-- The word at the sum of two registers. -/
  | loadSum
  /-- Stores a word at an address. -/
  | store
  /-- Stores a word at the sum of two registers. -/
  | storeSum
  | copy
  | arith (a : Arith)
  /-- The sign of a difference. -/
  | compare
  /-- One if a register passes a test, otherwise zero. -/
  | test (t : Test)
  /-- The remainder of the last division. -/
  | remainder
  | negate
  /-- Flips the lowest bit. -/
  | flip
  /-- Sets a register to a wyde. -/
  | setLow (n : Nat)
  /-- Adds a wyde at a place. -/
  | increase (place : Place) (n : Nat)
  /-- Stores an argument at an offset from SP. -/
  | storeArg (offset : Word)
  /-- Stores an argument at an offset from SP that is in a register. -/
  | storeArgSum
  /-- Calls a function past a window of registers. -/
  | call (window : Nat) (name : String)
  /-- The result of the last call. -/
  | result
  /-- To a label unless a register is zero. -/
  | branch (name : String)
  | jump (name : String)
  /-- An operation known by its template only. -/
  | other (template : String)
  deriving DecidableEq, Repr

/-- An operand in a template: the register written, a register read, or a fixed one. -/
inductive Slot where
  | dst
  | src (i : Fin 3)
  | fixed (o : Mmix.Operand)

def Slot.text : Slot → String
  | dst => "`d0"
  | src 0 => "`s0"
  | src 1 => "`s1"
  | src 2 => "`s2"
  | fixed o => o.text

/-- What a template is made of. -/
inductive Form where
  | instr (op : Mmix.Opcode) (slots : List Slot)
  | text (template : String)

def Form.template : Form → String
  | instr op slots => op.text ++ " " ++ String.intercalate "," (slots.map (·.text))
  | text template => template

namespace Op

def form : Op → Form
  | address name => .instr .lda [.dst, .fixed (.sym name)]
  | load => .instr .ldo [.dst, .src 0, .fixed (.num 0)]
  | loadSum => .instr .ldo [.dst, .src 0, .src 1]
  | store => .instr .sto [.src 0, .src 1, .fixed (.num 0)]
  | storeSum => .instr .sto [.src 0, .src 1, .src 2]
  | copy => .instr .set [.dst, .src 0]
  | arith a => .instr a.opcode [.dst, .src 0, .src 1]
  | compare => .instr .cmp [.dst, .src 0, .src 1]
  | test t => .instr t.opcode [.dst, .src 0, .fixed (.num 1)]
  | remainder => .instr .get [.dst, .fixed (.sym "rR")]
  | negate => .instr .neg [.dst, .fixed (.num 0), .src 0]
  | flip => .instr .xor [.dst, .src 0, .fixed (.num 1)]
  | setLow n => .instr .setl [.dst, .fixed (.num n)]
  | increase place n => .instr (.ofPlace place) [.dst, .fixed (.num n)]
  | storeArg offset => .instr .sto [.src 0, .fixed (.reg Register.sp), .fixed (.ofWord offset)]
  | storeArgSum => .instr .sto [.src 0, .fixed (.reg Register.sp), .src 1]
  | call window name => .instr .pushj [.fixed (.reg window), .fixed (.sym name)]
  | result => .instr .ldo [.dst, .fixed (.reg Register.sp), .fixed (.num 0)]
  | branch name => .instr .bnz [.src 0, .fixed (.sym name)]
  | jump name => .instr .jmp [.fixed (.sym name)]
  | other template => .text template

def template (op : Op) : String := op.form.template

/-- Does control come back to the next instruction although there is a label to go to? -/
def isCall : Op → Bool
  | call .. => true
  | other template => "PUSHJ".toList.isPrefixOf template.toList
  | _ => false

end Op

/-- An abstract instruction. -/
inductive Instr where
  | oper (op : Op) (uses defs : List Temp) (jumps : List Label)
  /-- A copy or a load: one use and one definition. -/
  | move (op : Op) (dst src : Temp)
  | label (l : Label)
  deriving DecidableEq, Repr

namespace Instr

/-- The temporaries that are read. -/
def uses : Instr → List Temp
  | oper _ uses _ _ => uses
  | move _ _ src => [src]
  | label _ => []

/-- The temporaries that are written. -/
def defs : Instr → List Temp
  | oper _ _ defs _ => defs
  | move _ dst _ => [dst]
  | label _ => []

/-- The labels that control may go to. -/
def jumps : Instr → List Label
  | oper _ _ _ jumps => jumps
  | move .. | label _ => []

def isCall : Instr → Bool
  | oper op _ _ _ => op.isCall
  | move .. | label _ => false

/-- The text of an instruction, with a text for each temporary; that of a label is its name. -/
def text (names : Names) (shown : Temp → String) (i : Instr) : String :=
  match i with
  | label l => names.textOf l
  | oper op uses defs _ => Template.fill op.template (uses.map shown) (defs.map shown)
  | move op dst src => Template.fill op.template [shown src] [shown dst]

end Instr

def ConstantStep.instr (t : Temp) : ConstantStep → Instr
  | set n => .oper (.setLow n) [] [t] []
  | add place n => .oper (.increase place n) [t] [t] []
  | negate => .oper .negate [t] [t] []

def loadConstant (t : Temp) (v : Word) : List Instr := (constantSteps v).map (·.instr t)

/-- The abstract code of a function. -/
structure Code where
  name : String
  frame : Frame
  entry : Label
  exit : Label
  instrs : List Instr
  /-- Bytes of spill slots. -/
  spillSize : Word := 0
  /-- The offset from FP of each spilled temporary. -/
  slots : Table Temp Word := ∅
  loc : Location := {}

namespace Code

def temps (c : Code) : TempSet :=
  Std.ExtTreeSet.ofList (c.instrs.flatMap (fun i => i.uses ++ i.defs) ++ [c.frame.fp, c.frame.rv])

/-- The text of a temporary: the frame pointer has a name of its own. -/
def shown (c : Code) (t : Temp) : String := if t = c.frame.fp then "FP" else t.text

def lines (names : Names) (c : Code) : List String :=
  c.instrs.map fun i =>
    match i with
    | .label _ => i.text names c.shown ++ ":"
    | _ => "        " ++ i.text names c.shown

end Code

end MmixBackend
