/-!
# Templates

The text of an abstract instruction has holes for its operands: a backquote, the letter `s` for
a use or `d` for a definition, and the number of the operand.  Filling in replaces a hole by the
text of its operand.  Anything after a backquote that names no operand is left as it stands.
-/

namespace MmixBackend.Template

/-- The character that opens a hole. -/
def tick : Char := Char.ofNat 96

/-- Where filling in stands. -/
inductive Scan where
  /-- Outside a hole. -/
  | plain
  /-- Right after a backquote. -/
  | opened
  /-- After the letter and some digits, the last digit first. -/
  | hole (kind : Char) (digits : List Char)

/-- An operand's number is below this bound; a longer row of digits names no operand. -/
def indexBound : Nat := UInt64.size

/-- The number written by digits, the last digit first. -/
def index? (digits : List Char) : Option Nat :=
  if digits.isEmpty then none
  else
    let n := digits.foldr (fun d n => n * 10 + (d.toNat - '0'.toNat)) 0
    if n < indexBound then some n else none

def operand? (uses defs : List String) (kind : Char) (digits : List Char) : Option String := do
  let i ← index? digits
  if kind = 's' then uses[i]? else if kind = 'd' then defs[i]? else none

/-- A closed hole: its operand, or the hole itself if it names none. -/
def close (uses defs : List String) (kind : Char) (digits : List Char) : List Char :=
  match operand? uses defs kind digits with
  | some s => s.toList
  | none => tick :: kind :: digits.reverse

def fillFrom (uses defs : List String) : Scan → List Char → List Char
  | .plain, [] => []
  | .plain, c :: cs =>
    if c = tick then fillFrom uses defs .opened cs else c :: fillFrom uses defs .plain cs
  | .opened, [] => [tick]
  | .opened, kind :: cs => fillFrom uses defs (.hole kind []) cs
  | .hole kind digits, [] => close uses defs kind digits
  | .hole kind digits, c :: cs =>
    if c.isDigit then fillFrom uses defs (.hole kind (c :: digits)) cs
    else
      close uses defs kind digits ++
        if c = tick then fillFrom uses defs .opened cs else c :: fillFrom uses defs .plain cs

def fill (template : String) (uses defs : List String) : String :=
  String.ofList (fillFrom uses defs .plain template.toList)

end MmixBackend.Template
