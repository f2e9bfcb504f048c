import MmixBackend.Chunk
import MmixBackend.Machine.Fault
import MmixBackend.Machine.Memory
import MmixBackend.Text.Utf8

/-!
# Programs in memory

To run a program the machine needs its code by label, the positions of the labels in each piece
of code, and its data in memory.  Data lie one after another; a literal takes a word for each
octet of its text.
-/

namespace MmixBackend.Machine

def dataStart : Word := 0x2000000000000000

/-- Where the heap starts, which grows upward. -/
def heapStart : Word := 0x3000000000000000

/-- Where the stack starts, which grows downward. -/
def stackStart : Word := 0x6000000000000000

structure Body where
  chunk : CodeChunk
  code : Array Ir.Stmt
  /-- The position of each label; of a repeated one, the last. -/
  targets : Table Label Nat
  deriving Inhabited

/-- The positions of labels in code that starts at a position. -/
def targetsFrom (position : Nat) (found : Table Label Nat) : List Ir.Stmt → Table Label Nat
  | [] => found
  | .label l :: ss => targetsFrom (position + 1) (found.insert l position) ss
  | _ :: ss => targetsFrom (position + 1) found ss

def Body.ofChunk (c : CodeChunk) : Body :=
  { chunk := c, code := c.stmts.toArray, targets := targetsFrom 0 ∅ c.stmts }

structure Image where
  names : Names
  /-- The functions by their labels; of two with one label, the last. -/
  bodies : Table Label Body
  /-- The addresses of data; of two with one label, the last. -/
  data : Table Label Word

/-- Stores octets as words one after another, the first of them `count` words behind `addr`. -/
def storeOctets (addr : Word) (count : Nat) (m : Memory) :
    List UInt8 → Except Overflow Memory
  | [] => .ok m
  | b :: bs => do
    let a ← Word.checkedAdd addr (Int64.ofNat (count * 8))
    storeOctets addr (count + 1) (m.store a (Int64.ofNat b.toNat)) bs

def placeData (addr : Word) (places : Table Label Word) (m : Memory) :
    List DataChunk → Except Overflow (Table Label Word × Memory)
  | [] => .ok (places, m)
  | d :: ds => do
    let m ← match d.init with
      | some text => storeOctets addr 0 m (Text.octets text)
      | none => .ok m
    let next ← Word.checkedAdd addr d.size
    placeData next (places.insert d.label addr) m ds

def load (names : Names) (chunks : Chunks) : Except Overflow (Image × Memory) := do
  let bodies := chunks.code.foldl (fun t c => t.insert c.frame.label (Body.ofChunk c)) ∅
  let (data, m) ← placeData dataStart ∅ {} chunks.data
  return ({ names, bodies, data }, m)

end MmixBackend.Machine
