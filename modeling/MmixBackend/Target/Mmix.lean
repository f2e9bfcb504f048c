import MmixBackend.Target.Constant
import MmixBackend.Target.Register
import MmixBackend.Text.Column

/-!
# Assembly text

A line of assembly has a label, a mnemonic and operands.  Instructions over registers have a
form of their own, so that what the fixed parts of a program do can be said about instructions
and not about text.
-/

namespace MmixBackend.Mmix

/-- A mnemonic of the machine. -/
inductive Opcode where
  | setl
  | incml
  | incmh
  | inch
  | neg
  | or
  | and
  | xor
  | add
  | sub
  | mul
  | div
  | cmp
  | zsz
  | zsnz
  | zsn
  | zsp
  | zsnp
  | zsnn
  | sto
  | ldo
  | stb
  | ldb
  | lda
  | set
  | get
  | put
  | jmp
  | bnz
  | pushj
  | pop
  | trap
  deriving DecidableEq, Repr

def Opcode.text : Opcode → String
  | setl => "SETL"
  | incml => "INCML"
  | incmh => "INCMH"
  | inch => "INCH"
  | neg => "NEG"
  | or => "OR"
  | and => "AND"
  | xor => "XOR"
  | add => "ADD"
  | sub => "SUB"
  | mul => "MUL"
  | div => "DIV"
  | cmp => "CMP"
  | zsz => "ZSZ"
  | zsnz => "ZSNZ"
  | zsn => "ZSN"
  | zsp => "ZSP"
  | zsnp => "ZSNP"
  | zsnn => "ZSNN"
  | sto => "STO"
  | ldo => "LDO"
  | stb => "STB"
  | ldb => "LDB"
  | lda => "LDA"
  | set => "SET"
  | get => "GET"
  | put => "PUT"
  | jmp => "JMP"
  | bnz => "BNZ"
  | pushj => "PUSHJ"
  | pop => "POP"
  | trap => "TRAP"

def Opcode.ofPlace : Place → Opcode
  | .mediumLow => incml
  | .mediumHigh => incmh
  | .high => inch

/-- An operand: a register, a number or a name. -/
inductive Operand where
  | reg (n : Nat)
  | num (n : Nat)
  | sym (name : String)
  deriving DecidableEq, Repr

def Operand.text : Operand → String
  | reg n => Register.text n
  | num n => toString n
  | sym name => name

/-- A number that may be negative. -/
def Operand.ofWord (v : Word) : Operand :=
  if v < 0 then sym (Word.text v) else num (Word.magnitude v)

/-- An instruction, with the label in front of it. -/
structure Instr where
  label : Option String := none
  op : Opcode
  args : List Operand
  deriving DecidableEq, Repr

/-- A line of assembly before it is set in columns. -/
structure Line where
  label : Option String := none
  op : String
  args : String
  deriving DecidableEq, Repr

def Instr.line (i : Instr) : Line :=
  { label := i.label, op := i.op.text, args := String.intercalate "," (i.args.map (·.text)) }

/-- The text of a line: the label in a column of 11, the mnemonic in one of 6. -/
def Line.text (l : Line) : String :=
  String.ofList (Text.trimEnd (Text.padTo 11 (l.label.getD "").toList ++ ' ' ::
    (Text.padTo 6 l.op.toList ++ ' ' :: l.args.toList)))

def ofConstantStep : ConstantStep → Instr
  | .set n => { op := .setl, args := [.reg 0, .num n] }
  | .add place n => { op := .ofPlace place, args := [.reg 0, .num n] }
  | .negate => { op := .neg, args := [.reg 0, .num 0, .reg 0] }

def labelled (label : Option String) : List Instr → List Instr
  | [] => []
  | i :: is => { i with label } :: is

def loadValue (label : Option String) (v : Word) : List Instr :=
  labelled label ((constantSteps v).map ofConstantStep)

end MmixBackend.Mmix
