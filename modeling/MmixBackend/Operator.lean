import MmixBackend.Word

/-!
# Operators

The binary operators are shared by the typed tree and the intermediate code, so they are
declared once, with their value on words.  `and` and `or` are bitwise and evaluate both
operands; a comparison gives 1 or 0.
-/

namespace MmixBackend

inductive BinOp where
  | or
  | and
  | eq
  | ne
  | lt
  | gt
  | le
  | ge
  | add
  | sub
  | mul
  | div
  | mod
  deriving DecidableEq, Repr

namespace BinOp

/-- Every operator, in the order of their names' table. -/
def all : List BinOp := [or, and, eq, ne, lt, gt, le, ge, add, sub, mul, div, mod]

/-- The operator's name in a typed program. -/
def name : BinOp → String
  | or => "Or"
  | and => "And"
  | eq => "Eq"
  | ne => "Ne"
  | lt => "Lt"
  | gt => "Gt"
  | le => "Le"
  | ge => "Ge"
  | add => "Add"
  | sub => "Sub"
  | mul => "Mul"
  | div => "Div"
  | mod => "Mod"

def ofName? (s : String) : Option BinOp := all.find? (·.name == s)

/-- The operator's mnemonic in intermediate code. -/
def mnemonic : BinOp → String
  | or => "OR"
  | and => "AND"
  | eq => "EQU"
  | ne => "NEQ"
  | lt => "LTH"
  | gt => "GTH"
  | le => "LEQ"
  | ge => "GEQ"
  | add => "ADD"
  | sub => "SUB"
  | mul => "MUL"
  | div => "DIV"
  | mod => "MOD"

def isRelational : BinOp → Bool
  | eq | ne | lt | gt | le | ge => true
  | _ => false

/-- The value of an operator: wrapping arithmetic and floored division. -/
def eval : BinOp → Word → Word → Word
  | or, l, r => l ||| r
  | and, l, r => l &&& r
  | eq, l, r => Word.ofBool (l == r)
  | ne, l, r => Word.ofBool (l != r)
  | lt, l, r => Word.ofBool (l < r)
  | gt, l, r => Word.ofBool (r < l)
  | le, l, r => Word.ofBool (l ≤ r)
  | ge, l, r => Word.ofBool (r ≤ l)
  | add, l, r => l + r
  | sub, l, r => l - r
  | mul, l, r => l * r
  | div, l, r => (Word.floorDiv l r).1
  | mod, l, r => (Word.floorDiv l r).2

theorem ofName?_name (op : BinOp) : ofName? op.name = some op := by
  cases op <;> rfl

end BinOp

inductive UnOp where
  /-- Arithmetic negation. -/
  | neg
  /-- Flips the lowest bit. -/
  | not
  deriving DecidableEq, Repr

namespace UnOp

def mnemonic : UnOp → String
  | neg => "NEG"
  | not => "NOT"

def eval : UnOp → Word → Word
  | neg, v => -v
  | not, v => v ^^^ 1

end UnOp

end MmixBackend
