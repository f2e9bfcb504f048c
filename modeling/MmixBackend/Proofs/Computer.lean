import Mathlib.Logic.Function.Basic
import MmixBackend.Proofs.Octets
import MmixBackend.Proofs.Processor
import MmixBackend.Target.Assembly

/-!
# Executing assembly

The fixed parts of a program are instructions over registers.  They are executed here on registers,
on memory by octets, on the return address `rJ` and the remainder `rR`, and with input and output:
`Fputs` writes a text that a zero octet ends, and `Fgets` reads a line.  The names that instructions
use for data are those of the buffers, which are laid out as the directives for them say.

Instructions are executed one by one up to an instruction that goes elsewhere.  A constant is put
together in `$0`.
-/

namespace MmixBackend

/-! ## Lines of input -/

/-- The octets up to and with the first newline, at most `n`, and what is left after them. -/
def splitLine : Nat → List UInt8 → List UInt8 × List UInt8
  | 0, bs => ([], bs)
  | _ + 1, [] => ([], [])
  | n + 1, b :: bs =>
    if b = 10 then ([b], bs)
    else (b :: (splitLine n bs).1, (splitLine n bs).2)

theorem length_splitLine_le (n : Nat) (bs : List UInt8) : (splitLine n bs).1.length ≤ n := by
  fun_induction splitLine n bs with
  | case1 bs => exact Nat.le_refl 0
  | case2 n => exact Nat.zero_le _
  | case3 n bs => exact Nat.succ_le_succ (Nat.zero_le n)
  | case4 n b bs hb ih => exact Nat.succ_le_succ ih

/-- A line starts with the first octet that is left. -/
theorem splitLine_cons (n : Nat) (b : UInt8) (bs : List UInt8) :
    ∃ l, (splitLine (n + 1) (b :: bs)).1 = b :: l := by
  rw [splitLine]
  split
  · exact ⟨[], rfl⟩
  · exact ⟨_, rfl⟩

/-- An octet as a word of the same sign. -/
def signed (b : UInt8) : Word := b.toInt8.toInt64

namespace Mmix

/-! ## Data -/

/-- The number that decimal digits write. -/
def numeral? (cs : List Char) : Option Nat :=
  if cs ≠ [] ∧ cs.all Char.isDigit then some (Nat.ofDigitChars 10 cs 0) else none

/-- What the assembler has laid out. -/
structure Segment where
  /-- Where the next datum goes. -/
  here : Word := 0
  symbols : List (String × Word) := []
  octets : Octets := fun _ => 0

namespace Segment

def term? (s : Segment) (t : String) : Option Word :=
  if t = "@" then some s.here
  else if t = "Data_Segment" then some 0x2000000000000000
  else (numeral? t.toList).map Int64.ofNat <|> s.symbols.lookup t

def value? (s : Segment) (expr : List Char) : Option Word :=
  (expr.splitOn '+').foldlM (fun total t => (s.term? (String.ofList t)).map (total + ·)) 0

def values? (s : Segment) (args : String) : Option (List Word) :=
  (args.toList.splitOn ',').mapM s.value?

/-- A label, if there is one, stands for a word. -/
def define (s : Segment) (label : Option String) (v : Word) : Segment :=
  { s with symbols := label.toList.map (·, v) ++ s.symbols }

/-- Words one after another, from an octa on. -/
def octas (s : Segment) : List Word → Segment
  | [] => s
  | v :: vs => octas { s with here := s.here + 8, octets := s.octets.storeWord s.here v } vs

/-- What a directive lays out; a global register takes no room. -/
def place? (s : Segment) (l : Line) : Option Segment := do
  if l.op = "GREG" then return s
  let vs ← s.values? l.args
  match l.op, vs with
  | "LOC", [v] => return { s with here := v }
  | "IS", [v] => return s.define l.label v
  | "BYTE", vs =>
    return { s.define l.label s.here with
      here := s.here + Int64.ofNat vs.length
      octets := s.octets.write s.here (vs.map (·.toUInt64.toUInt8)) }
  | "OCTA", vs =>
    let start := Int64.ofInt (8 * (s.here + 7).octa)
    return ({ s.define l.label start with here := start }).octas vs
  | _, _ => none

end Segment

end Mmix

namespace Assembly

/-- The buffers laid out at the start of the data segment. -/
def laidOut? : Option Mmix.Segment := (dataSegment ++ buffers).foldlM (·.place? ·) {}

/-- The octets that a program starts with. -/
def laidOut : Mmix.Octets := (laidOut?.map (·.octets)).getD fun _ => 0

/-- What the label of a buffer stands for. -/
def address? (name : String) : Option Word := laidOut?.bind (·.symbols.lookup name)

def outBuf : Word := 0x2000000000000000
def inBuf : Word := 0x2000000000000008
def inArgs : Word := 0x2000000000000070

theorem address?_outBuf : address? "OutBuf" = some outBuf := by decide +kernel
theorem address?_inBuf : address? "InBuf" = some inBuf := by decide +kernel
theorem address?_inArgs : address? "InArgs" = some inArgs := by decide +kernel

end Assembly

namespace Mmix

/-! ## Instructions -/

/-- What instructions work on. -/
structure Computer where
  registers : Nat → Word
  /-- The return address, in `rJ`. -/
  returns : Word
  /-- The remainder of the last division, in `rR`. -/
  remainder : Word
  octets : Octets
  input : List UInt8
  /-- The octets written, the latest first. -/
  output : List UInt8

/-- Where control goes. -/
inductive Departure where
  | jump (name : String)
  | back (address : Word)
  deriving DecidableEq

namespace Computer

variable (c : Computer)

def set (r : Nat) (v : Word) : Computer := { c with registers := Function.update c.registers r v }

theorem set_set (r : Nat) (v w : Word) : (c.set r v).set r w = c.set r w := by
  simp [set]

theorem set_registers (r : Nat) : c.set r (c.registers r) = c := by
  simp [set]

/-- The word that an operand stands for. -/
def value? : Operand → Option Word
  | .reg r => some (c.registers r)
  | .num n => some (Int64.ofNat n)
  | .sym name => Assembly.address? name

/-- A register set from a wyde and what it holds. -/
def wyde? (f : Word → Nat → Word) : List Operand → Option Computer
  | [.reg d, .num n] => some (c.set d (f (c.registers d) n))
  | _ => none

/-- A register set from two operands. -/
def compute? (f : Word → Word → Word) : List Operand → Option Computer
  | [.reg d, y, z] => do
    let y ← c.value? y
    let z ← c.value? z
    return c.set d (f y z)
  | _ => none

/-- A register set to a quotient; the remainder is left behind. -/
def divide? : List Operand → Option Computer
  | [.reg d, y, z] => do
    let y ← c.value? y
    let z ← c.value? z
    return { c with remainder := (Word.floorDiv y z).2 }.set d (Word.floorDiv y z).1
  | _ => none

/-- Memory changed at the sum of two operands by what is in a register. -/
def store? (f : Word → Word → Octets) : List Operand → Option Computer
  | [.reg r, y, z] => do
    let y ← c.value? y
    let z ← c.value? z
    return { c with octets := f (y + z) (c.registers r) }
  | _ => none

def copy? : List Operand → Option Computer
  | [.reg d, y] => (c.value? y).map (c.set d)
  | _ => none

/-- A register set to a special one. -/
def get? : List Operand → Option Computer
  | [.reg d, .sym name] =>
    if name = "rJ" then some (c.set d c.returns)
    else if name = "rR" then some (c.set d c.remainder)
    else none
  | _ => none

/-- The return address set to a register. -/
def put? : List Operand → Option Computer
  | [.sym name, .reg r] => if name = "rJ" then some { c with returns := c.registers r } else none
  | _ => none

/-- The text from an address up to the first zero octet, none if it is longer than `n`. -/
def text? (o : Octets) : Nat → Word → Option (List UInt8)
  | 0, _ => none
  | n + 1, a => if o a = 0 then some [] else (text? o n (a + 1)).map (o a :: ·)

/-- The number of addresses, which no text is longer than. -/
def addresses : Nat := 2 ^ 64

/-- Writes the text at the address in the scratch register. -/
def fputs? : Option Computer := do
  let bs ← text? c.octets addresses (c.registers Register.scratch)
  return { c.set Register.scratch 0 with output := bs.reverse ++ c.output }

/-- Reads a line into a buffer and ends it by a zero octet.  The scratch register has the address of
two words, the buffer and its size; after it, the number of octets read, or -1 if there are none. -/
def fgets : Computer :=
  let args := c.registers Register.scratch
  let line := splitLine ((c.octets.word (args + 8)).toUInt64.toNat - 1) c.input
  if line.1 = [] then c.set Register.scratch (-1)
  else { c.set Register.scratch (Int64.ofNat line.1.length) with
    octets := c.octets.write (c.octets.word args) (line.1 ++ [0]), input := line.2 }

/-- A request to the system. -/
def trap? : List Operand → Option Computer
  | [.num 0, .sym "Fputs", .sym "StdOut"] => c.fputs?
  | [.num 0, .sym "Fgets", .sym "StdIn"] => some c.fgets
  | _ => none

/-- What an instruction does, if it goes on to the next one. -/
def exec? (i : Instr) : Option Computer :=
  match i.op with
  | .setl => c.wyde? (fun _ n => Word.ofWyde 0 n) i.args
  | .incml => c.wyde? (fun v n => v + Word.ofWyde 1 n) i.args
  | .incmh => c.wyde? (fun v n => v + Word.ofWyde 2 n) i.args
  | .inch => c.wyde? (fun v n => v + Word.ofWyde 3 n) i.args
  | .or => c.compute? (· ||| ·) i.args
  | .and => c.compute? (· &&& ·) i.args
  | .xor => c.compute? (· ^^^ ·) i.args
  | .add => c.compute? (· + ·) i.args
  | .neg | .sub => c.compute? (· - ·) i.args
  | .mul => c.compute? (· * ·) i.args
  | .div => c.divide? i.args
  | .cmp => c.compute? Word.order i.args
  | .zsz => c.compute? (fun y z => if y = 0 then z else 0) i.args
  | .zsnz => c.compute? (fun y z => if y ≠ 0 then z else 0) i.args
  | .zsn => c.compute? (fun y z => if y < 0 then z else 0) i.args
  | .zsp => c.compute? (fun y z => if 0 < y then z else 0) i.args
  | .zsnp => c.compute? (fun y z => if y ≤ 0 then z else 0) i.args
  | .zsnn => c.compute? (fun y z => if 0 ≤ y then z else 0) i.args
  | .ldo => c.compute? (fun y z => c.octets.word (y + z)) i.args
  | .ldb => c.compute? (fun y z => signed (c.octets (y + z))) i.args
  | .sto => c.store? c.octets.storeWord i.args
  | .stb => c.store? (fun a v => Function.update c.octets a v.toUInt64.toUInt8) i.args
  | .lda | .set => c.copy? i.args
  | .get => c.get? i.args
  | .put => c.put? i.args
  | .trap => c.trap? i.args
  | .jmp | .bnz | .pushj | .pop => none

/-- What instructions do in order. -/
def execs? (is : List Instr) : Option Computer := is.foldlM exec? c

/-- Where an instruction goes, if it goes elsewhere.  A return leaves global registers as they
are. -/
def departure? (i : Instr) : Option Departure :=
  match i.op, i.args with
  | .jmp, [.sym name] => some (.jump name)
  | .pop, [.num 0, .num 0] => some (.back c.returns)
  | _, _ => none

/-- Instructions up to one that goes elsewhere. -/
def run? (c : Computer) : List Instr → Option (Departure × Computer)
  | [] => none
  | i :: is =>
    match c.departure? i with
    | some d => some (d, c)
    | none => (c.exec? i).bind (·.run? is)

variable {c} {c' : Computer} {i : Instr} {is : List Instr}

@[simp] theorem execs?_nil : c.execs? [] = some c := rfl

@[simp] theorem execs?_cons : c.execs? (i :: is) = (c.exec? i).bind (·.execs? is) :=
  List.foldlM_cons

theorem execs?_append (h : c.execs? is = some c') (js : List Instr) :
    c.execs? (is ++ js) = c'.execs? js := by
  rw [execs?, List.foldlM_append]
  exact congrArg (· >>= fun c => js.foldlM exec? c) h

/-- What is executed does not go elsewhere. -/
theorem departure?_of_exec? (h : c.exec? i = some c') : c.departure? i = none := by
  unfold departure?
  split
  · next hop _ => simp [exec?, hop] at h
  · next hop _ => simp [exec?, hop] at h
  · rfl

theorem run?_append (h : c.execs? is = some c') (js : List Instr) :
    c.run? (is ++ js) = c'.run? js := by
  induction is generalizing c with
  | nil =>
    cases h
    rfl
  | cons i is ih =>
    obtain ⟨c₁, hi, his⟩ := Option.bind_eq_some_iff.mp (execs?_cons ▸ h)
    rw [List.cons_append, run?, departure?_of_exec? hi, hi]
    exact ih his

/-! ## Constants -/

theorem exec?_ofConstantStep (step : ConstantStep) (c : Computer) :
    c.exec? (ofConstantStep step) = some (c.set 0 (step.value (c.registers 0))) := by
  cases step with
  | set n => rfl
  | add place n => cases place <;> rfl
  | negate => rfl

theorem execs?_constantSteps (steps : List ConstantStep) (c : Computer) :
    c.execs? (steps.map ofConstantStep) =
      some (c.set 0 (constantValue steps (c.registers 0))) := by
  induction steps generalizing c with
  | nil => exact congrArg some (c.set_registers 0).symm
  | cons step steps ih =>
    rw [List.map_cons, execs?_cons, exec?_ofConstantStep, Option.bind_some, ih, set_set,
      constantValue_cons]
    simp [set]

/-- Nothing is made of a label. -/
theorem execs?_loadValue (label : Option String) (v : Word) (c : Computer) :
    c.execs? (loadValue label v) = some (c.set 0 v) := by
  have hlabel : c.execs? (loadValue label v) =
      c.execs? ((constantSteps v).map ofConstantStep) := rfl
  rw [hlabel, execs?_constantSteps, constantValue_constantSteps]

end Computer

theorem head_loadValue (label : Option String) (v : Word) (is : List Instr) :
    (loadValue label v ++ is).head?.bind (·.label) = label := rfl

end Mmix

end MmixBackend
