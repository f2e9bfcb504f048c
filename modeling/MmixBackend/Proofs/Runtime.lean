import MmixBackend.Proofs.Computer
import MmixBackend.Proofs.Faults
import MmixBackend.Proofs.Pass

/-!
# The functions that the machine provides

The machine provides four functions, and a program in assembly brings its own instructions for
them.

Main statement: in every sequence of calls both sides allocate the same blocks, but the instructions

* leave at SP, after `_del` and `_putc`, the static link that the caller passed,
* write nothing for the octet zero, and
* give the first octet of every line of at most 99 octets, with its sign, where the machine gives
  every octet.

The two agree exactly when these differences do not show.
-/

namespace MmixBackend

open Machine

/-! ## Calls -/

namespace Mmix.Computer

/-- The registers that a function starts with: those below the global ones are its own. -/
def fresh (c : Computer) : Computer :=
  { c with registers := fun r => if r < Register.firstGlobal then 0 else c.registers r }

/-- The registers after a call, of which the caller has kept the first `k`. -/
def returned (c : Computer) (k : Nat) (c' : Computer) : Computer :=
  { c' with registers := fun r =>
      if r < Register.firstGlobal then if r < k then c.registers r else 0 else c'.registers r }

/-- A call of a function that keeps the first `k` registers and comes back to the caller. -/
def call? (k : Nat) (code : List Instr) (c : Computer) : Option Computer := do
  let (departure, c') ← c.fresh.run? code
  if departure = .back c.returns then some (c.returned k c') else none

end Mmix.Computer

/-- A function that the machine provides. -/
inductive Service where
  | new
  | del
  | putc
  | getc
  deriving DecidableEq

namespace Service

/-- The name that the machine knows it by. -/
def name : Service → String
  | new => "_new"
  | del => "_del"
  | putc => "_putc"
  | getc => "_getc"

def code : Service → List Mmix.Instr
  | new => Assembly.new
  | del => Assembly.del
  | putc => Assembly.putc
  | getc => Assembly.getc

theorem label_code (s : Service) : s.code.head?.map (·.label) = some (some s.name) := by
  cases s <;> rfl

end Service

/-- The runtime of a program is the code of the services. -/
theorem Assembly.runtime_eq : runtime = [.remark "", .remark (comment "Runtime")] ++
    ([.new, .del, .putc, .getc].flatMap Service.code).map (Row.line ·.line) := rfl

structure Request where
  service : Service
  sp : Word
  link : Word
  argument : Word

/-- What a program sees of the world besides memory. -/
structure Exchange where
  hp : Word
  input : List UInt8
  /-- The octets written, the latest first. -/
  output : List UInt8

def Machine.World.exchange (w : World) : Exchange := ⟨w.hp, w.input, w.output⟩

def Mmix.Computer.exchange (c : Mmix.Computer) : Exchange :=
  ⟨c.registers Register.hp, c.input, c.output⟩

namespace Request

def octet (q : Request) : UInt8 := q.argument.toUInt64.toUInt8

/-- The call on the machine, and the word at SP after it. -/
def answer (q : Request) (w : World) : Except Fault (World × Word) := do
  let m ← exactly (storeArgs q.sp w.memory [0, 8] [q.link, q.argument])
  let (w, result) ← builtin { w with memory := m, sp := q.sp } q.service.name
  let m := w.memory.store w.sp result
  return ({ w with memory := m }, m.load q.sp)

/-- Memory and SP as the caller leaves them. -/
def passed (q : Request) (c : Mmix.Computer) : Mmix.Computer :=
  { c.set Register.sp q.sp with
    octets := (c.octets.storeWord q.sp q.link).storeWord (q.sp + 8) q.argument }

/-- The call of the instructions, and the word at SP after it. -/
def serve? (k : Nat) (q : Request) (c : Mmix.Computer) : Option (Mmix.Computer × Word) :=
  ((q.passed c).call? k q.service.code).map fun c' => (c', c'.octets.word q.sp)

/-- Calls on the machine one after another, with their results. -/
def answers : List Request → World → Except Fault (World × List Word)
  | [], w => .ok (w, [])
  | q :: qs, w => do
    let (w, r) ← q.answer w
    let (w, rs) ← answers qs w
    return (w, r :: rs)

/-- Calls of the instructions one after another, with their results. -/
def serves? (k : Nat) : List Request → Mmix.Computer → Option (Mmix.Computer × List Word)
  | [], c => some (c, [])
  | q :: qs, c => do
    let (c, r) ← q.serve? k c
    let (c, rs) ← serves? k qs c
    return (c, r :: rs)

/-- What a call of the instructions comes to. -/
def served (q : Request) (e : Exchange) : Exchange × Word :=
  match q.service with
  | .new => ({ e with hp := e.hp + q.argument }, e.hp)
  | .del => (e, q.link)
  | .putc => ({ e with output := if q.octet = 0 then e.output else q.octet :: e.output }, q.link)
  | .getc => ({ e with input := (splitLine 99 e.input).2 }, signed (e.input.headD 0))

/-- What a call on the machine comes to, if it does not overflow. -/
def answered (q : Request) (e : Exchange) : Exchange × Word :=
  match q.service with
  | .new => ({ e with hp := e.hp + q.argument }, e.hp)
  | .del => (e, 0)
  | .putc => ({ e with output := q.octet :: e.output }, 0)
  | .getc => ({ e with input := e.input.tail }, Int64.ofNat (e.input.headD 0).toNat)

end Request

/-! ## Where the buffers are -/

open Assembly

/-- The buffers as the instructions need them: the output buffer ends after one octet, and the words
for `Fgets` say where the input buffer is and how long. -/
structure Mmix.Octets.Ready (o : Mmix.Octets) : Prop where
  ending : o (outBuf + 1) = 0
  buffer : o.word inArgs = inBuf
  size : o.word (inArgs + 8) = 100

/-- An address outside the buffers. -/
def Word.Away (a : Word) : Prop := a.octa < outBuf.octa ∨ inArgs.octa + 1 < a.octa

/-- The words of a call are outside the buffers. -/
def Request.Placed (q : Request) : Prop := q.sp.Away ∧ (q.sp + 8).Away

instance (q : Request) : Decidable q.Placed :=
  inferInstanceAs (Decidable ((_ ∨ _) ∧ (_ ∨ _)))

theorem Word.Away.ne_outBuf {a : Word} (h : a.Away) : outBuf.octa ≠ a.octa := by
  have hbelow : outBuf.octa < inArgs.octa := by decide
  unfold Word.Away at h
  omega

namespace Mmix.Octets.Ready

variable {o : Mmix.Octets}

theorem storeWord (h : o.Ready) {a : Word} (ha : a.Away) (v : Word) : (o.storeWord a v).Ready := by
  have hout : (outBuf + 1).octa = outBuf.octa := by decide
  have hargs : (inArgs + 8).octa = inArgs.octa + 1 := by decide
  have hbelow : outBuf.octa < inArgs.octa := by decide
  unfold Word.Away at ha
  refine ⟨?_, ?_, ?_⟩
  · rw [storeWord_of_ne _ _ (by omega), h.ending]
  · rw [word_storeWord_of_ne _ _ (by omega), h.buffer]
  · rw [word_storeWord_of_ne _ _ (by omega), h.size]

/-- The input buffer is apart from what has to stay. -/
theorem clear (h : o.Ready) (v : Word) : (o.storeWord inBuf v).Ready where
  ending := by rw [storeWord_of_ne _ _ (by decide), h.ending]
  buffer := by rw [word_storeWord_of_ne _ _ (by decide), h.buffer]
  size := by rw [word_storeWord_of_ne _ _ (by decide), h.size]

theorem put (h : o.Ready) (b : UInt8) : Ready (Function.update o outBuf b) where
  ending := by rw [Function.update_of_ne (by decide), h.ending]
  buffer := by rw [word_update _ _ (by decide), h.buffer]
  size := by rw [word_update _ _ (by decide), h.size]

/-- The input buffer holds a line of 99 octets and its end. -/
theorem write (h : o.Ready) {bs : List UInt8} (hbs : bs.length ≤ 100) :
    (o.write inBuf bs).Ready := by
  have hin : inBuf.toInt = 2305843009213693960 := by decide
  have hout : (outBuf + 1).toInt = 2305843009213693953 := by decide
  have hargs : inArgs.octa = 288230376151711758 := by decide
  have hargs' : (inArgs + 8).octa = 288230376151711759 := by decide
  refine ⟨?_, ?_, ?_⟩
  · rw [write_of_outside _ _ _ (by omega) (by omega), h.ending]
  · rw [word_write _ _ (by omega) (by omega), h.buffer]
  · rw [word_write _ _ (by omega) (by omega), h.size]

end Mmix.Octets.Ready

theorem Assembly.laidOut_ready : laidOut.Ready :=
  ⟨by decide +kernel, by decide +kernel, by decide +kernel⟩

/-! ## One call -/

open Mmix (Computer)

/-- The function that a call goes to is about to run. -/
structure Request.Passed (q : Request) (c : Computer) : Prop where
  placed : q.Placed
  sp : c.registers Register.sp = q.sp
  link : c.octets.word q.sp = q.link
  argument : c.octets.word (q.sp + 8) = q.argument
  ready : c.octets.Ready

/-- From `c` to `c'` a call was made and left a word at SP. -/
structure Request.Settles (q : Request) (c c' : Computer) : Prop where
  exchange : c'.exchange = (q.served c.exchange).1
  result : c'.octets.word q.sp = (q.served c.exchange).2
  ready : c'.octets.Ready

namespace Request

variable {q : Request} {c : Computer}

theorem passed_passed (hq : q.Placed) (hc : c.octets.Ready) : q.Passed (q.passed c).fresh where
  placed := hq
  sp := by simp [passed, Computer.fresh, Computer.set, Register.sp, Register.firstGlobal]
  link := by
    show ((c.octets.storeWord q.sp q.link).storeWord (q.sp + 8) q.argument).word q.sp = q.link
    rw [Mmix.Octets.word_storeWord_of_ne _ _ (Word.octa_add_ne _ (by decide)).symm,
      Mmix.Octets.word_storeWord_self]
  argument := Mmix.Octets.word_storeWord_self _ _ _
  ready := (hc.storeWord hq.1 _).storeWord hq.2 _

theorem run?_new (h : q.Passed c) (hs : q.service = .new) :
    ∃ c', c.run? Assembly.new = some (.back c.returns, c') ∧ q.Settles c c' := by
  refine ⟨{ c with
    registers := Function.update (Function.update c.registers 0 q.argument) Register.hp
      (c.registers Register.hp + q.argument)
    octets := c.octets.storeWord q.sp (c.registers Register.hp) }, ?_, ?_, ?_, ?_⟩
  · have hsp : c.registers 254 = q.sp := h.sp
    simp [Assembly.new, Computer.run?, Computer.departure?, Computer.exec?, Computer.compute?, Computer.store?,
      Computer.value?, Computer.set, Register.sp, Register.hp, hsp, h.argument]
  · simp [Computer.exchange, served, hs]
  · simp [Mmix.Octets.word_storeWord_self, served, hs, Computer.exchange]
  · exact h.ready.storeWord h.placed.1 _

theorem run?_del (h : q.Passed c) (hs : q.service = .del) :
    ∃ c', c.run? Assembly.del = some (.back c.returns, c') ∧ q.Settles c c' := by
  refine ⟨c, rfl, ?_, ?_, h.ready⟩
  · simp [served, hs]
  · simp [served, hs, h.link]

/-- The text in the output buffer is one octet long, or empty. -/
theorem text?_outBuf {o : Mmix.Octets} (ho : o.Ready) (b : UInt8) :
    Computer.text? (Function.update o outBuf b) Computer.addresses outBuf =
      some (if b = 0 then [] else [b]) := by
  have hend : Function.update o outBuf b (outBuf + 1) = 0 := (ho.put b).ending
  rw [show Computer.addresses = 18446744073709551614 + 2 from rfl, Computer.text?, Computer.text?,
    hend, Function.update_self]
  split <;> rfl

theorem run?_putc (h : q.Passed c) (hs : q.service = .putc) :
    ∃ c', c.run? Assembly.putc = some (.back c.returns, c') ∧ q.Settles c c' := by
  refine ⟨{ c with
    registers := Function.update (Function.update (Function.update c.registers Register.scratch
      outBuf) 0 q.argument) Register.scratch 0
    octets := Function.update c.octets outBuf q.octet
    output := if q.octet = 0 then c.output else q.octet :: c.output }, ?_, ?_, ?_, ?_⟩
  · have hsp : c.registers 254 = q.sp := h.sp
    have htext := text?_outBuf h.ready q.octet
    rw [octet] at htext
    simp [Assembly.putc, Computer.run?, Computer.departure?, Computer.exec?, Computer.compute?, Computer.store?,
      Computer.copy?, Computer.trap?, Computer.fputs?, Computer.value?, Computer.set, Register.sp,
      Register.scratch, address?_outBuf, hsp, h.argument, htext, octet]
    by_cases hzero : q.argument.toUInt64.toUInt8 = 0 <;> simp [hzero]
  · simp [Computer.exchange, served, hs, Register.hp, Register.scratch]
  · rw [Mmix.Octets.word_update _ _ h.placed.1.ne_outBuf, h.link, served, hs]
  · exact h.ready.put _

/-- A line starts where the input buffer does, which is left as it was when there is no line. -/
theorem fgets_ready {c : Computer} (hc : c.octets.Ready) (hzero : c.octets inBuf = 0)
    (hargs : c.registers Register.scratch = inArgs) :
    c.fgets.octets inBuf = c.input.headD 0 ∧ c.fgets.octets.Ready ∧
      c.fgets.input = (splitLine 99 c.input).2 := by
  have hsize : (100 : Word).toUInt64.toNat - 1 = 99 := by decide
  simp only [Computer.fgets, hargs, hc.size, hc.buffer, hsize]
  cases hinput : c.input with
  | nil => exact ⟨hzero, hc, hinput⟩
  | cons b bs =>
    obtain ⟨l, hl⟩ := splitLine_cons 98 b bs
    have hlength := length_splitLine_le 99 (b :: bs)
    have hin : inBuf.toInt = 2305843009213693960 := by decide
    rw [hl, List.length_cons] at hlength
    rw [hl, if_neg (List.cons_ne_nil _ _)]
    have hend : (l ++ [0]).length = l.length + 1 := List.length_append
    refine ⟨?_, ?_, rfl⟩
    · exact Mmix.Octets.write_cons_self _ inBuf _ (l ++ [0]) (by omega)
    · have hroom : (b :: (l ++ [0])).length ≤ 100 := by
        rw [List.length_cons]
        omega
      exact hc.write hroom

theorem fgets_registers {c : Computer} {r : Nat} (hr : r ≠ Register.scratch) :
    c.fgets.registers r = c.registers r := by
  unfold Computer.fgets
  dsimp only
  split
  · exact Function.update_of_ne hr _ _
  · exact Function.update_of_ne hr _ _

theorem fgets_output {c : Computer} :
    c.fgets.output = c.output ∧ c.fgets.returns = c.returns := by
  unfold Computer.fgets
  dsimp only
  split <;> exact ⟨rfl, rfl⟩

/-- The input buffer is cleared, and the words for `Fgets` are pointed at. -/
def asking (c : Computer) : Computer :=
  { c with
    registers := Function.update (Function.update (Function.update c.registers 0 inBuf) 1 0)
      Register.scratch inArgs
    octets := c.octets.storeWord inBuf 0 }

/-- The octet found in the input buffer is the result. -/
def taking (c : Computer) (sp v : Word) : Computer :=
  { c with
    registers := Function.update c.registers 1 v
    octets := c.octets.storeWord sp v }

theorem run?_taking {sp : Word} (hsp : c.registers 254 = sp) (hbuf : c.registers 0 = inBuf) :
    c.run? (Assembly.getc.drop 5) =
      some (.back c.returns, taking c sp (signed (c.octets inBuf))) := by
  simp [Assembly.getc, Computer.run?, Computer.departure?, Computer.exec?, Computer.compute?,
    Computer.store?, Computer.value?, Computer.set, Register.sp, taking, hsp, hbuf]

theorem run?_getc (h : q.Passed c) (hs : q.service = .getc) :
    ∃ c', c.run? Assembly.getc = some (.back c.returns, c') ∧ q.Settles c c' := by
  have hargs : (asking c).registers Register.scratch = inArgs := by simp [asking]
  have hzero : (asking c).octets inBuf = 0 := c.octets.storeWord_zero inBuf
  obtain ⟨hhead, hready, hinput⟩ := fgets_ready (h.ready.clear 0) hzero hargs
  obtain ⟨houtput, hreturns⟩ := fgets_output (c := asking c)
  have hsp : (asking c).fgets.registers 254 = q.sp := (fgets_registers (by decide)).trans h.sp
  have hbuf : (asking c).fgets.registers 0 = inBuf := fgets_registers (by decide)
  have hhp : (asking c).fgets.registers 252 = c.registers 252 := fgets_registers (by decide)
  refine ⟨taking (asking c).fgets q.sp (signed (c.input.headD 0)), ?_, ?_, ?_, ?_⟩
  · have hask : c.run? Assembly.getc = (asking c).fgets.run? (Assembly.getc.drop 5) := by
      simp [Assembly.getc, Computer.run?, Computer.departure?, Computer.exec?, Computer.store?, asking,
        Computer.copy?, Computer.trap?, Computer.value?, Computer.set, Register.scratch,
        address?_inBuf, address?_inArgs]
    rw [hask, run?_taking hsp hbuf, hhead, hreturns]
    rfl
  · simp only [Computer.exchange, served, hs, Register.hp, taking, hinput, houtput]
    rw [Function.update_of_ne (by decide), hhp]
    rfl
  · rw [taking, Mmix.Octets.word_storeWord_self, served, hs]
    rfl
  · exact hready.storeWord h.placed.1 _

/-- The instructions of every service come to its return. -/
theorem run?_code (h : q.Passed c) : 
    ∃ c', c.run? q.service.code = some (.back c.returns, c') ∧ q.Settles c c' := by
  cases hs : q.service with
  | new => exact run?_new h hs
  | del => exact run?_del h hs
  | putc => exact run?_putc h hs
  | getc => exact run?_getc h hs

theorem serve?_eq (k : Nat) (hq : q.Placed) (hc : c.octets.Ready) :
    ∃ c', q.serve? k c = some (c', (q.served c.exchange).2) ∧
      c'.exchange = (q.served c.exchange).1 ∧ c'.octets.Ready := by
  obtain ⟨c', hrun, hexchange, hresult, hready⟩ := run?_code (passed_passed hq hc)
  refine ⟨(q.passed c).returned k c', ?_, hexchange, hready⟩
  have hcall : (q.passed c).call? k q.service.code = some ((q.passed c).returned k c') := by
    rw [Computer.call?, hrun]
    exact if_pos rfl
  rw [serve?, hcall]
  exact congrArg some (Prod.ext rfl hresult)

theorem exactly_eq_ok {α : Type} {x : Except Overflow α} {a : α} (h : exactly x = .ok a) :
    x = .ok a := by
  cases x with
  | error cause => cases h
  | ok b =>
    cases h
    rfl

/-- The words that are passed are at SP and above it. -/
theorem storeArgs_ok {m m' : Memory}
    (h : storeArgs q.sp m [0, 8] [q.link, q.argument] = .ok m') :
    m'.load (q.sp + 8) = q.argument := by
  obtain ⟨a, -, h⟩ := bind_eq_ok h
  obtain ⟨b, hb, h⟩ := bind_eq_ok h
  cases h
  rw [Memory.load_store, if_pos (checkedAdd_eq_ok hb)]

theorem builtin_ok {w w' : World} {v : Word} (h : builtin w q.service.name = .ok (w', v))
    (harg : w.memory.load (w.sp + 8) = q.argument) :
    w'.exchange = (q.answered w.exchange).1 ∧ v = (q.answered w.exchange).2 := by
  obtain ⟨addr, haddr, h⟩ := bind_eq_ok h
  obtain rfl := checkedAdd_eq_ok (exactly_eq_ok haddr)
  rw [show w.sp + Word.size = w.sp + 8 from rfl, harg] at h
  unfold answered
  cases hs : q.service with
  | new =>
    rw [hs] at h
    obtain ⟨hp, hhp, h⟩ := bind_eq_ok h
    obtain rfl := checkedAdd_eq_ok (exactly_eq_ok hhp)
    cases h
    exact ⟨rfl, rfl⟩
  | del | putc =>
    rw [hs] at h
    cases h
    exact ⟨rfl, rfl⟩
  | getc =>
    rw [hs] at h
    cases hinput : w.input with
    | nil | cons b bs =>
      simp only [Service.name, hinput] at h
      cases h
      simp [World.exchange, hinput]

theorem answer_ok {w w' : World} {r : Word} (h : q.answer w = .ok (w', r)) :
    w'.exchange = (q.answered w.exchange).1 ∧ r = (q.answered w.exchange).2 := by
  obtain ⟨m, hm, h⟩ := bind_eq_ok h
  obtain ⟨⟨w₁, v⟩, hbuiltin, h⟩ := bind_eq_ok h
  cases h
  obtain ⟨hexchange, hv⟩ := builtin_ok hbuiltin (storeArgs_ok (exactly_eq_ok hm))
  have hsp : w₁.sp = q.sp := (builtin_keeps hbuiltin).2
  refine ⟨hexchange, ?_⟩
  rw [Memory.load_store, if_pos hsp]
  exact hv

end Request

/-! ## Sequences of calls -/

namespace Request

/-- The number of octets that are asked for. -/
def reads (qs : List Request) : Nat := qs.countP (·.service = .getc)

/-- The octets that are to be written, the first first. -/
def written (qs : List Request) : List UInt8 :=
  (qs.filter (·.service = .putc)).map octet

/-- The first octets of `n` lines, with their signs. -/
def lineHeads : Nat → List UInt8 → List Word
  | 0, _ => []
  | n + 1, bs => signed (bs.headD 0) :: lineHeads n (splitLine 99 bs).2

/-- The first `n` octets; after the last there are zeros. -/
def heads : Nat → List UInt8 → List Word
  | 0, _ => []
  | n + 1, bs => Int64.ofNat (bs.headD 0).toNat :: heads n bs.tail

/-- The differences between the instructions and the machine do not show in calls. -/
structure Plain (qs : List Request) (input : List UInt8) : Prop where
  /-- What stays at SP is what the machine puts there. -/
  link : ∀ q ∈ qs, q.service = .del ∨ q.service = .putc → q.link = 0
  /-- No text is empty. -/
  visible : ∀ b ∈ written qs, b ≠ 0
  lines : lineHeads (reads qs) input = heads (reads qs) input

/-- What calls of the instructions come to. -/
def servedAll : List Request → Exchange → Exchange × List Word
  | [], e => (e, [])
  | q :: qs, e =>
    let (e', rs) := servedAll qs (q.served e).1
    (e', (q.served e).2 :: rs)

/-- What calls on the machine come to. -/
def answeredAll : List Request → Exchange → Exchange × List Word
  | [], e => (e, [])
  | q :: qs, e =>
    let (e', rs) := answeredAll qs (q.answered e).1
    (e', (q.answered e).2 :: rs)

variable {qs : List Request}

theorem serves?_eq (k : Nat) (hqs : ∀ q ∈ qs, q.Placed) :
    ∀ {c : Computer}, c.octets.Ready → ∃ c',
      serves? k qs c = some (c', (servedAll qs c.exchange).2) ∧
      c'.exchange = (servedAll qs c.exchange).1 := by
  induction qs with
  | nil =>
    intro c _
    exact ⟨c, rfl, rfl⟩
  | cons q qs ih =>
    intro c hc
    obtain ⟨hq, hqs⟩ := List.forall_mem_cons.mp hqs
    obtain ⟨c₁, hserve, hexchange, hready⟩ := serve?_eq k hq hc
    obtain ⟨c', hrest, hlast⟩ := ih hqs hready
    rw [hexchange] at hrest hlast
    refine ⟨c', ?_, hlast⟩
    rw [serves?, hserve]
    show (serves? k qs c₁ >>= _) = _
    rw [hrest]
    rfl

theorem answers_ok : ∀ {w w' : World} {rs : List Word},
    answers qs w = .ok (w', rs) →
      w'.exchange = (answeredAll qs w.exchange).1 ∧ rs = (answeredAll qs w.exchange).2 := by
  induction qs with
  | nil =>
    intro w w' rs h
    cases h
    exact ⟨rfl, rfl⟩
  | cons q qs ih =>
    intro w w' rs h
    obtain ⟨⟨w₁, r⟩, hanswer, h⟩ := bind_eq_ok h
    obtain ⟨⟨w₂, rs'⟩, hrest, h⟩ := bind_eq_ok h
    cases h
    obtain ⟨hexchange, rfl⟩ := answer_ok hanswer
    obtain ⟨hlast, rfl⟩ := ih hrest
    rw [hexchange] at hlast ⊢
    exact ⟨hlast, rfl⟩

theorem hp_served {e e' : Exchange} (h : e.hp = e'.hp) (q : Request) :
    (q.served e).1.hp = (q.answered e').1.hp := by
  unfold served answered
  cases q.service <;> simp [h]

theorem hp_servedAll : ∀ {e e' : Exchange}, e.hp = e'.hp →
    (servedAll qs e).1.hp = (answeredAll qs e').1.hp := by
  induction qs with
  | nil =>
    intro e e' h
    exact h
  | cons q qs ih =>
    intro e e' h
    exact ih (hp_served h q)

/-- Blocks are at the same addresses. -/
theorem servedAll_new : ∀ {e e' : Exchange} {i : Nat} {q : Request},
    e.hp = e'.hp → qs[i]? = some q → q.service = .new →
    (servedAll qs e).2[i]? = (answeredAll qs e').2[i]? := by
  induction qs with
  | nil =>
    intro e e' i q _ hi _
    cases hi
  | cons p qs ih =>
    intro e e' i q h hi hq
    cases i with
    | zero =>
      cases hi
      show some (p.served e).2 = some (p.answered e').2
      rw [served, answered, hq]
      exact congrArg some h
    | succ i => exact ih (hp_served h p) hi hq

theorem output_servedAll : ∀ {e : Exchange},
    (servedAll qs e).1.output = ((written qs).filter (· ≠ 0)).reverse ++ e.output := by
  induction qs with
  | nil =>
    intro e
    rfl
  | cons q qs ih =>
    intro e
    show (servedAll qs (q.served e).1).1.output = _
    rw [ih]
    cases hs : q.service with
    | new | del | getc => simp [served, written, hs]
    | putc => by_cases hq : q.octet = 0 <;> simp [served, written, hs, hq]

theorem output_answeredAll : ∀ {e : Exchange},
    (answeredAll qs e).1.output = (written qs).reverse ++ e.output := by
  induction qs with
  | nil =>
    intro e
    rfl
  | cons q qs ih =>
    intro e
    show (answeredAll qs (q.answered e).1).1.output = _
    rw [ih]
    cases hs : q.service with
    | new | del | getc | putc => simp [answered, written, hs]

/-- The results are those of the machine when no static link shows and the lines are the octets. -/
theorem results_eq_iff : ∀ {e e' : Exchange}, e.hp = e'.hp →
    ((servedAll qs e).2 = (answeredAll qs e').2 ↔
      (∀ q ∈ qs, q.service = .del ∨ q.service = .putc → q.link = 0) ∧
        lineHeads (reads qs) e.input = heads (reads qs) e'.input) := by
  induction qs with
  | nil =>
    intro e e' _
    exact ⟨fun _ => ⟨fun q hq => absurd hq (List.not_mem_nil), rfl⟩, fun _ => rfl⟩
  | cons q qs ih =>
    intro e e' h
    show (q.served e).2 :: (servedAll qs (q.served e).1).2 =
      (q.answered e').2 :: (answeredAll qs (q.answered e').1).2 ↔ _
    rw [List.cons.injEq, ih (hp_served h q), List.forall_mem_cons]
    cases hs : q.service with
    | new => simp [served, answered, reads, hs, h]
    | del | putc => simp [served, answered, reads, hs, and_assoc]
    | getc =>
      simp only [served, answered, reads, hs, lineHeads, heads, List.countP_cons, decide_true,
        if_true, List.cons.injEq, reduceCtorEq, or_self, false_implies, true_and]
      exact and_left_comm

/-- The instructions of the runtime return from every call and allocate the blocks of the machine.
They write the octets of the machine without the zeros.  Results and output are those of the machine
exactly when the calls are plain. -/
theorem runtime_agrees_iff (k : Nat) {qs : List Request} {c : Computer} {w w' : World}
    {rs : List Word} (hready : c.octets.Ready) (hplaced : ∀ q ∈ qs, q.Placed)
    (hsame : c.exchange = w.exchange) (hok : answers qs w = .ok (w', rs)) :
    ∃ c' rs', serves? k qs c = some (c', rs') ∧ c'.exchange.hp = w'.hp ∧
      (∀ (i : Nat) (q : Request), qs[i]? = some q → q.service = .new → rs'[i]? = rs[i]?) ∧
      c'.output = ((written qs).filter (· ≠ 0)).reverse ++ w.output ∧
      w'.output = (written qs).reverse ++ w.output ∧
      (rs' = rs ∧ c'.output = w'.output ↔ Plain qs w.input) := by
  obtain ⟨c', hserves, hexchange⟩ := serves?_eq k hplaced hready
  obtain ⟨hexchange', rfl⟩ := answers_ok hok
  rw [hsame] at hserves hexchange
  have houtput : c'.output = ((written qs).filter (· ≠ 0)).reverse ++ w.output :=
    (congrArg Exchange.output hexchange).trans output_servedAll
  have houtput' : w'.output = (written qs).reverse ++ w.output :=
    (congrArg Exchange.output hexchange').trans output_answeredAll
  have hvisible : c'.output = w'.output ↔ ∀ b ∈ written qs, b ≠ 0 := by
    rw [houtput, houtput', List.append_left_inj, List.reverse_inj, List.filter_eq_self]
    simp only [decide_eq_true_eq]
  refine ⟨c', _, hserves, ?_, fun i q hi hq => servedAll_new rfl hi hq, houtput, houtput', ?_⟩
  · rw [hexchange, hp_servedAll rfl, ← hexchange']
    rfl
  · rw [results_eq_iff rfl, hvisible]
    exact ⟨fun ⟨⟨hlink, hlines⟩, hvisible⟩ => ⟨hlink, hvisible, hlines⟩,
      fun h => ⟨⟨h.link, h.lines⟩, h.visible⟩⟩

/-- A computer with the buffers laid out. -/
def booted (input : List UInt8) : Computer where
  registers := fun r => if r = Register.hp then 0x3000000000000000 else 0
  returns := 0x104
  remainder := 0
  octets := laidOut
  input := input
  output := []

/-- The machine at the same moment. -/
def begun (input : List UInt8) : World where
  memory := {}
  sp := 0
  hp := 0x3000000000000000
  input := input
  output := []

/-- Results and output of calls of the instructions. -/
def emitted (input : List UInt8) (qs : List Request) : Option (List Word × List UInt8) :=
  (serves? 8 qs (booted input)).map fun (c, rs) => (rs, c.output)

/-- Results and output of calls on the machine. -/
def expected (input : List UInt8) (qs : List Request) : Option (List Word × List UInt8) :=
  (answers qs (begun input)).toOption.map fun (w, rs) => (rs, w.output)

/-- Two blocks, an empty line, a letter that ends the input, and the letter written. -/
def plainCalls : List Request :=
  [⟨.new, 0x5000000000000000, 7, 24⟩, ⟨.new, 0x5000000000000000, 7, 8⟩,
   ⟨.getc, 0x5000000000000000, 7, 0⟩, ⟨.getc, 0x5000000000000000, 7, 0⟩,
   ⟨.putc, 0x5000000000000000, 0, 66⟩, ⟨.del, 0x5000000000000000, 0, 0⟩]

theorem plainCalls_agree : (booted [10, 66]).octets.Ready ∧ (∀ q ∈ plainCalls, q.Placed) ∧
    Plain plainCalls [10, 66] ∧
    ∃ w' rs c', answers plainCalls (begun [10, 66]) = .ok (w', rs) ∧
      serves? 8 plainCalls (booted [10, 66]) = some (c', rs) ∧ c'.output = w'.output := by
  have hready : (booted [10, 66]).octets.Ready := laidOut_ready
  have hplaced : ∀ q ∈ plainCalls, q.Placed := by decide +kernel
  have hwritten : written plainCalls = [66] := by decide
  have hplain : Plain plainCalls [10, 66] := ⟨by decide, by simp [hwritten], by decide⟩
  obtain ⟨⟨w', rs⟩, hok⟩ : ∃ a, answers plainCalls (begun [10, 66]) = .ok a := by decide +kernel
  have hsame : (booted [10, 66]).exchange = (begun [10, 66]).exchange := rfl
  obtain ⟨c', rs', hserves, -, -, -, -, hagree⟩ := runtime_agrees_iff 8 hready hplaced hsame hok
  obtain ⟨rfl, houtput⟩ := hagree.mpr hplain
  exact ⟨hready, hplaced, hplain, w', _, c', hok, hserves, houtput⟩

/-- The result of `_del` is the static link; a zero is not written; the second octet of a line is
not read; an octet from 128 on is negative. -/
theorem runtime_differs :
    emitted [] [⟨.del, 0x5000000000000000, 7, 0⟩] = some ([7], []) ∧
    expected [] [⟨.del, 0x5000000000000000, 7, 0⟩] = some ([0], []) ∧
    emitted [] [⟨.putc, 0x5000000000000000, 0, 0⟩] = some ([0], []) ∧
    expected [] [⟨.putc, 0x5000000000000000, 0, 0⟩] = some ([0], [0]) ∧
    emitted [65, 66] (List.replicate 2 ⟨.getc, 0x5000000000000000, 7, 0⟩) = some ([65, 0], []) ∧
    expected [65, 66] (List.replicate 2 ⟨.getc, 0x5000000000000000, 7, 0⟩) = some ([65, 66], []) ∧
    emitted [200] [⟨.getc, 0x5000000000000000, 7, 0⟩] = some ([-56], []) ∧
    expected [200] [⟨.getc, 0x5000000000000000, 7, 0⟩] = some ([200], []) := by
  decide +kernel

end Request

end MmixBackend
