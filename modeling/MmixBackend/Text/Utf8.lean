/-!
# Reading octets as UTF-8

Program output is a list of octets and is shown as text.  Well-formed UTF-8 is read as it is;
each longest run of octets that starts a character but cannot be completed is replaced by one
U+FFFD, as is every octet that starts no character.

The reader is a machine over single octets.  Between characters it stands at `idle`; within one
it remembers the bits read so far, how many octets are still owed, and the range the next octet
has to be in.  The first continuation octet of a character has a narrower range after `E0`,
`ED`, `F0` and `F4`, which rules out overlong forms, surrogates and code points past the last.
-/

namespace MmixBackend.Text

/-- Where the reader stands between two octets. -/
inductive Utf8State where
  | idle
  /-- `owed` more octets, the next between `low` and `high`; `bits` were read. -/
  | within (bits owed low high : Nat)
  deriving DecidableEq, Repr

/-- Stands for octets that are no character. -/
def replacement : Char := Char.ofNat 0xfffd

namespace Utf8State

/-- The first octet of a character: the characters it completes at once, and the new state. -/
def start (b : Nat) : List Char × Utf8State :=
  if b ≤ 0x7f then ([Char.ofNat b], idle)
  else if 0xc2 ≤ b ∧ b ≤ 0xdf then ([], within (b - 0xc0) 1 0x80 0xbf)
  else if b = 0xe0 then ([], within 0 2 0xa0 0xbf)
  else if b = 0xed then ([], within 0xd 2 0x80 0x9f)
  else if 0xe1 ≤ b ∧ b ≤ 0xef then ([], within (b - 0xe0) 2 0x80 0xbf)
  else if b = 0xf0 then ([], within 0 3 0x90 0xbf)
  else if 0xf1 ≤ b ∧ b ≤ 0xf3 then ([], within (b - 0xf0) 3 0x80 0xbf)
  else if b = 0xf4 then ([], within 4 3 0x80 0x8f)
  else ([replacement], idle)

/-- One octet.  An octet that cannot continue the character ends it with a replacement and is
then read as a first octet. -/
def step : Utf8State → Nat → List Char × Utf8State
  | idle, b => start b
  | within bits owed low high, b =>
    if low ≤ b ∧ b ≤ high then
      let bits := bits * 64 + (b - 0x80)
      if owed = 1 then ([Char.ofNat bits], idle) else ([], within bits (owed - 1) 0x80 0xbf)
    else
      let (cs, s) := start b
      (replacement :: cs, s)

/-- What is left open at the end is one replacement. -/
def finish : Utf8State → List Char
  | idle => []
  | within .. => [replacement]

def read : Utf8State → List UInt8 → List Char
  | s, [] => s.finish
  | s, b :: bs =>
    let (cs, s) := s.step b.toNat
    cs ++ read s bs

end Utf8State

/-- Octets as text, with a replacement for each ill-formed run. -/
def ofOctets (bs : List UInt8) : String := String.ofList (Utf8State.idle.read bs)

def octets (s : String) : List UInt8 := s.toUTF8.toList

def ofOctets? (bs : List UInt8) : Option String :=
  let s := ofOctets bs
  if octets s = bs then some s else none

end MmixBackend.Text
