/-!
# Registers

Registers from `$251` on are global; the ones below are free for temporaries, and a call moves
the window past those in use.
-/

namespace MmixBackend.Register

def sp : Nat := 254

def fp : Nat := 253

def hp : Nat := 252

def firstGlobal : Nat := 251

/-- Reserved for the assembler; passes arguments to the system and the exit value. -/
def scratch : Nat := 255

/-- Fewest registers that can be allocated to: repairing a spill takes an offset, a value and
one more at once. -/
def least : Nat := 3

/-- Registers given to the allocator when nothing else is asked for. -/
def standard : Nat := 8

/-- `$0`, `$1`, … -/
def text (n : Nat) : String := "$" ++ toString n

end MmixBackend.Register
