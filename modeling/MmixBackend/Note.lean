import MmixBackend.Names
import MmixBackend.Word

/-!
# Notes

What the compiler and the machine report while they work.  A note is an event with the figures
that belong to it; its wording is here and nowhere else.
-/

namespace MmixBackend

/-- How detailed a note is, the most detailed level first. -/
inductive Level where
  | trace
  | debug
  | info
  deriving DecidableEq, Repr

namespace Level

/-- The rank of a level; a higher rank is more severe. -/
def rank : Level → Nat
  | trace => 0
  | debug => 1
  | info => 2

def name : Level → String
  | trace => "TRACE"
  | debug => "DEBUG"
  | info => "INFO"

end Level

/-- Something worth a report. -/
inductive Note where
  /-- The frame of a function was laid out. -/
  | framed (label : String) (depth : Nat) (locals arguments size : Word)
  /-- A function's body is being lowered. -/
  | lowering (function : String) (depth : Nat)
  /-- A store was split into its address and its value. -/
  | store (address value : Temp)
  /-- The operands of a binary operator were put into temporaries. -/
  | operands (lhs rhs : Temp)
  /-- A load goes to its own temporary. -/
  | load (target : Temp)
  /-- A function's code was made linear. -/
  | linear (function : String) (statements : Nat)
  /-- The machine entered a function. -/
  | entered (function : String) (fp : Word)
  /-- A statement went on after its call returned. -/
  | resumed (function : String) (position : Nat)
  /-- The machine is done. -/
  | halted (entry : String) (exit : Word) (steps : Nat)
  /-- Instructions were selected for a function. -/
  | selected (function : String) (instructions : Nat)
  /-- Liveness reached its fixed point. -/
  | settled (function : String) (passes : Nat)
  /-- A round of colouring is over. -/
  | colored (function : String) (round temps spills : Nat)
  /-- A temporary got a slot in the frame. -/
  | spilled (function : String) (temp : Temp) (offset : Word)
  /-- The assembly text is complete. -/
  | assembled (functions data lines : Nat)

namespace Note

def level : Note → Level
  | store .. | operands .. | load .. | entered .. | resumed .. => .trace
  | spilled .. => .info
  | _ => .debug

def text : Note → String
  | framed label depth locals arguments size =>
    "frame " ++ label ++ ": depth=" ++ toString depth ++ " locs=" ++ Word.text locals ++
      " args=" ++ Word.text arguments ++ " size=" ++ Word.text size
  | lowering function depth => "imcgen: " ++ function ++ " (depth " ++ toString depth ++ ")"
  | store address value => "canon store: addr=" ++ address.text ++ " value=" ++ value.text
  | operands lhs rhs => "canon binop: lhs=" ++ lhs.text ++ " rhs=" ++ rhs.text
  | load target => "canon load: " ++ target.text
  | linear function statements =>
    "imclin: " ++ function ++ " has " ++ toString statements ++ " statements"
  | entered function fp => "interp: enter " ++ function ++ " fp=" ++ Word.hex fp
  | resumed function position =>
    "interp: resumed " ++ function ++ " at " ++ toString position
  | halted entry exit steps =>
    "interp: " ++ entry ++ " returned " ++ Word.text exit ++ " after " ++ toString steps ++
      " steps"
  | selected function instructions =>
    "asmgen: " ++ function ++ " -> " ++ toString instructions ++ " instructions"
  | settled function passes =>
    "livean: " ++ function ++ " settled after " ++ toString passes ++ " passes"
  | colored function round temps spills =>
    "regall: " ++ function ++ " round " ++ toString round ++ ": " ++ toString temps ++
      " temps, " ++ toString spills ++ " spills"
  | spilled function temp offset =>
    "regall: " ++ function ++ " spills " ++ temp.text ++ " to FP" ++ Word.text offset
  | assembled functions data lines =>
    "emit: " ++ toString functions ++ " functions, " ++ toString data ++ " data chunks, " ++
      toString lines ++ " lines"

end Note

end MmixBackend
