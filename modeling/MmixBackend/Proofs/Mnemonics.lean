import MmixBackend.Proofs.Computer
import MmixBackend.Proofs.Simulation

/-!
# What the lines of instructions mean

A line of assembly is read back: the mnemonic gives the instruction, and the operands are told apart
by their characters.

Main statements: the line of an instruction is read back as that instruction, and the line of an
operation as an instruction that does to registers and octas what the operation computes.  Only an
instruction that adds a wyde reads the register that it writes, whatever the operation reads.
-/

namespace MmixBackend

namespace Mmix

/-! ## Reading lines -/

namespace Opcode

def all : List Opcode :=
  [setl, incml, incmh, inch, neg, or, and, xor, add, sub, mul, div, cmp, zsz, zsnz, zsn, zsp, zsnp,
   zsnn, sto, ldo, stb, ldb, lda, set, get, put, jmp, bnz, pushj, pop, trap]

def ofText? (s : String) : Option Opcode := all.find? (·.text = s)

/-- No two mnemonics have the same text. -/
theorem ofText?_text (o : Opcode) : ofText? o.text = some o := by
  cases o <;> rfl

theorem blank_notMem_text (o : Opcode) : ' ' ∉ o.text.toList := by
  cases o <;> decide

theorem tick_notMem_text (o : Opcode) : Template.tick ∉ o.text.toList := by
  cases o <;> decide

end Opcode

theorem toList_toString (n : Nat) : (toString n).toList = Nat.toDigits 10 n := by
  change n.repr.toList = _
  rw [Nat.repr_eq_ofList_toDigits, String.toList_ofList]

theorem notMem_digits {c : Char} (hc : ¬ c.isDigit) (n : Nat) : c ∉ (toString n).toList := by
  intro h
  rw [toList_toString] at h
  exact hc (Nat.isDigit_of_mem_toDigits (by decide) (by decide) h)

theorem Register.notMem_text {c : Char} (hc : ¬ c.isDigit) (hne : c ≠ '$') (n : Nat) :
    c ∉ (MmixBackend.Register.text n).toList := by
  rw [MmixBackend.Register.text, String.toList_append, List.mem_append, not_or]
  exact ⟨fun h => hne (List.mem_singleton.mp h), notMem_digits hc n⟩

theorem numeral?_toString (n : Nat) : numeral? (toString n).toList = some n := by
  have hdigits : (Nat.toDigits 10 n).all Char.isDigit := List.all_eq_true.mpr fun c hc =>
    Nat.isDigit_of_mem_toDigits (by decide) (by decide) hc
  rw [toList_toString, numeral?, if_pos ⟨Nat.toDigits_ne_nil, hdigits⟩, Nat.ofDigitChars_ten_toDigits]

namespace Operand

/-- A register after a dollar sign, a number in digits, or else a name. -/
def ofChars (cs : List Char) : Operand :=
  if cs.head? = some '$' then ((numeral? cs.tail).map reg).getD (sym (String.ofList cs))
  else ((numeral? cs).map num).getD (sym (String.ofList cs))

/-- A name that is taken for nothing else. -/
def Legible : Operand → Prop
  | reg _ | num _ => True
  | sym name => ',' ∉ name.toList ∧ ofChars name.toList = sym name

theorem ofChars_text {o : Operand} (h : o.Legible) : ofChars o.text.toList = o := by
  cases o with
  | reg n =>
    have hchars : (Register.text n).toList = '$' :: (toString n).toList := by
      rw [Register.text, String.toList_append]
      rfl
    rw [text, hchars, ofChars, if_pos List.head?_cons, List.tail_cons, numeral?_toString]
    rfl
  | num n =>
    have hhead : (toString n).toList.head? ≠ some '$' := fun hhead =>
      notMem_digits (by decide) n (List.mem_of_head? hhead)
    rw [text, ofChars, if_neg hhead, numeral?_toString]
    rfl
  | sym name => exact h.2

theorem comma_notMem_text {o : Operand} (h : o.Legible) : ',' ∉ o.text.toList := by
  cases o with
  | reg n => exact Register.notMem_text (by decide) (by decide) n
  | num n => exact notMem_digits (by decide) n
  | sym name => exact h.1

end Operand

def Line.instr? (l : Line) : Option Instr :=
  (Opcode.ofText? l.op).map fun op =>
    { label := l.label, op, args := (l.args.toList.splitOn ',').map Operand.ofChars }

/-- A line says which instruction it is. -/
theorem Instr.instr?_line {i : Instr} (hne : i.args ≠ []) (h : ∀ o ∈ i.args, o.Legible) :
    i.line.instr? = some i := by
  have hargs : i.line.args.toList.splitOn ',' = i.args.map (·.text.toList) := by
    rw [Instr.line, String.toList_intercalate, List.map_map]
    refine List.splitOn_intercalate ',' (fun l hl => ?_) (by simpa using hne)
    obtain ⟨o, ho, rfl⟩ := List.mem_map.mp hl
    exact Operand.comma_notMem_text (h o ho)
  have hread : (i.args.map (·.text.toList)).map Operand.ofChars = i.args := by
    rw [List.map_map]
    exact (List.map_congr_left fun o ho => Operand.ofChars_text (h o ho)).trans (List.map_id _)
  rw [Line.instr?, hargs, hread]
  exact congrArg (Option.map _) i.op.ofText?_text

end Mmix

/-! ## Templates -/

namespace Template

/-- Text before the first hole stands as it is. -/
theorem fillFrom_append {uses defs : List String} {xs : List Char} (h : tick ∉ xs)
    (ys : List Char) :
    fillFrom uses defs .plain (xs ++ ys) = xs ++ fillFrom uses defs .plain ys := by
  induction xs with
  | nil => rfl
  | cons x xs ih =>
    rw [List.mem_cons, not_or] at h
    rw [List.cons_append, fillFrom, if_neg (Ne.symm h.1), ih h.2]
    rfl

end Template

open Template

namespace Slot

/-- The operand that is filled in for registers. -/
def operand (us ds : List Nat) : Slot → Mmix.Operand
  | dst => .reg (ds.getD 0 0)
  | src i => .reg (us.getD i 0)
  | fixed o => o

/-- There is a register for the operand, and a fixed operand stays as it is and is read back. -/
def Fits (us ds : List Nat) : Slot → Prop
  | dst => 0 < ds.length
  | src i => i < us.length
  | fixed o => tick ∉ o.text.toList ∧ o.Legible

variable {us ds : List Nat}

@[simp] theorem fits_dst : Fits us ds dst ↔ 0 < ds.length := Iff.rfl

@[simp] theorem fits_src {i : Fin 3} : Fits us ds (src i) ↔ i < us.length := Iff.rfl

@[simp] theorem fits_reg {n : Nat} : Fits us ds (fixed (.reg n)) :=
  ⟨Mmix.Register.notMem_text (by decide) (by decide) n, trivial⟩

@[simp] theorem fits_num {n : Nat} : Fits us ds (fixed (.num n)) :=
  ⟨Mmix.notMem_digits (by decide) n, trivial⟩

theorem Fits.legible {s : Slot} (h : s.Fits us ds) : (s.operand us ds).Legible := by
  cases s with
  | dst | src => trivial
  | fixed o => exact h.2

theorem fillFrom_slot {s : Slot} (h : s.Fits us ds) {rest : List Char}
    (hrest : rest = [] ∨ ∃ cs, rest = ',' :: cs) :
    fillFrom (us.map Register.text) (ds.map Register.text) .plain (s.text.toList ++ rest) =
      (s.operand us ds).text.toList ++
        fillFrom (us.map Register.text) (ds.map Register.text) .plain rest := by
  -- what follows a hole closes it
  have hhole : ∀ {kind d : Char} {s : String}, d.isDigit →
      operand? (us.map Register.text) (ds.map Register.text) kind [d] = some s →
      fillFrom (us.map Register.text) (ds.map Register.text) .plain (tick :: kind :: d :: rest) =
        s.toList ++ fillFrom (us.map Register.text) (ds.map Register.text) .plain rest := by
    intro kind d s hd hs
    rcases hrest with rfl | ⟨cs, rfl⟩ <;> simp [fillFrom, close, hd, hs]
  have hoperand : ∀ {xs : List Nat} {i : Nat}, i < xs.length →
      (xs.map Register.text)[i]? = some (Register.text (xs.getD i 0)) := by
    intro xs i hi
    simp [hi]
  match s, h with
  | fixed o, h => exact fillFrom_append h.1 _
  | dst, h => exact hhole (by decide) (hoperand h)
  | src 0, h => exact hhole (by decide) (hoperand h)
  | src 1, h => exact hhole (by decide) (hoperand h)
  | src 2, h => exact hhole (by decide) (hoperand h)

/-- Operands with commas between them are filled in one by one. -/
theorem fillFrom_slots {ss : List Slot} (h : ∀ s ∈ ss, s.Fits us ds) :
    fillFrom (us.map Register.text) (ds.map Register.text) .plain
        ([','].intercalate (ss.map (·.text.toList))) =
      [','].intercalate (ss.map (fun s => (s.operand us ds).text.toList)) := by
  induction ss with
  | nil => rfl
  | cons s ss ih =>
    obtain ⟨hs, hss⟩ := List.forall_mem_cons.mp h
    cases ss with
    | nil => simpa [fillFrom] using fillFrom_slot hs (Or.inl rfl)
    | cons s' ss =>
      have hcomma := @fillFrom_append (us.map Register.text) (ds.map Register.text) [','] (by decide)
        ([','].intercalate ((s' :: ss).map (·.text.toList)))
      rw [ih hss] at hcomma
      simp only [List.map_cons, List.intercalate_cons_cons, List.append_assoc] at hcomma ⊢
      exact (fillFrom_slot hs (Or.inr ⟨_, rfl⟩)).trans (congrArg (_ ++ ·) hcomma)

end Slot

/-! ## The lines of operations -/

namespace Assembly

theorem splitBlank_append {op : String} (h : ' ' ∉ op.toList) (args : String) :
    splitBlank (op ++ " " ++ args) = (op, args) := by
  have hop : ∀ c ∈ op.toList, decide (c ≠ ' ') = true := by
    intro c hc
    simp only [ne_eq, decide_eq_true_eq]
    rintro rfl
    exact h hc
  have htext : (op ++ " " ++ args).toList = op.toList ++ ' ' :: args.toList := by simp
  rw [splitBlank, htext, List.takeWhile_append_of_pos hop, List.dropWhile_append_of_pos hop]
  simp

/-- A form that is filled in is the text of an instruction. -/
theorem fill_form {o : Mmix.Opcode} {ss : List Slot} {us ds : List Nat}
    (h : ∀ s ∈ ss, s.Fits us ds) :
    fill (Form.instr o ss).template (us.map Register.text) (ds.map Register.text) =
      o.text ++ " " ++ String.intercalate "," ((ss.map (Slot.operand us ds)).map (·.text)) := by
  apply String.toList_injective
  have hblank := @fillFrom_append (us.map Register.text) (ds.map Register.text) [' '] (by decide)
  have hslots := Slot.fillFrom_slots h
  simp only [fill, Form.template, String.toList_append, String.toList_ofList, List.append_assoc,
    String.toList_intercalate, List.map_map, fillFrom_append o.tick_notMem_text]
  exact congrArg (_ ++ ·) ((hblank _).trans (congrArg (_ ++ ·) hslots))

/-- The line of an operation is that of an instruction of the machine. -/
theorem instrLine_oper {op : Op} {o : Mmix.Opcode} {ss : List Slot} {a : Allocation}
    {us ds : List Temp} {rs ts : List Nat} (names : Names) (label : Option String)
    (js : List Label) (hform : op.form = .instr o ss) (hrs : us.map (a.registers.getD · 0) = rs)
    (hts : ds.map (a.registers.getD · 0) = ts) (hfits : ∀ s ∈ ss, s.Fits rs ts) :
    instrLine names a label (.oper op us ds js) =
      Mmix.Instr.line { label, op := o, args := ss.map (Slot.operand rs ts) } := by
  have htext : instrText names a (.oper op us ds js) =
      fill op.template (rs.map Register.text) (ts.map Register.text) := by
    rw [← hrs, ← hts, List.map_map, List.map_map]
    rfl
  rw [instrLine, htext, Op.template, hform, fill_form hfits, splitBlank_append o.blank_notMem_text]
  rfl

end Assembly

/-! ## Operations -/

namespace Mmix

/-- The octas hold the words of memory. -/
def Octets.Shows (o : Octets) (m : Machine.Memory) : Prop :=
  ∀ a : Word, a.toInt % 8 = 0 → o.word a = m.load a

theorem Octets.Shows.store {o : Octets} {m : Machine.Memory} (h : o.Shows m) {a : Word}
    (ha : a.toInt % 8 = 0) (v : Word) : (o.storeWord a v).Shows (m.store a v) := by
  intro b hb
  have hocta : b.octa = a.octa ↔ a = b := by
    rw [← Int64.toInt_inj]
    unfold Word.octa
    omega
  simp only [word_storeWord, Machine.Memory.load_store, hocta, h b hb]

namespace Computer

variable {ds : List Nat}

theorem set_eq (c : Computer) (hds : ds.length = 1) (v : Word) :
    c.set (ds.getD 0 0) v = { c with registers := writeAll c.registers ds [v] } := by
  obtain ⟨d, rfl⟩ := List.length_eq_one_iff.mp hds
  have hregisters : (c.set d v).registers = writeAll c.registers [d] [v] :=
    funext fun r => Function.update_apply ..
  rw [← hregisters]
  rfl

variable {c : Computer} {m : Machine.Memory} {a b e : Word} {y z : Operand} (label : Option String)
  (hy : c.value? y = some b) (hz : c.value? z = some e) (hsum : b + e = a)

include hy hz hsum

theorem exec?_load (h : c.octets.Shows m) (ha : a.toInt % 8 = 0) (hds : ds.length = 1) :
    c.exec? { label, op := .ldo, args := [.reg (ds.getD 0 0), y, z] } =
      some { c with registers := writeAll c.registers ds [m.load a] } := by
  rw [← h a ha, ← set_eq c hds]
  simp [exec?, compute?, hy, hz, hsum]

theorem exec?_store (hds : ds.length = 0) (r : Nat) :
    c.exec? { label, op := .sto, args := [.reg r, y, z] } =
      some { c with
        registers := writeAll c.registers ds []
        octets := c.octets.storeWord a (c.registers r) } := by
  rw [List.length_eq_zero_iff.mp hds]
  simp [exec?, store?, hy, hz, hsum, writeAll]

end Computer

end Mmix

namespace Op

open Mmix (Computer)

/-- The address that an operation loads from or stores at. -/
def place? (sp : Word) : Op → List Word → Option Word
  | load, [a] | store, [_, a] => some a
  | loadSum, [a, b] | storeSum, [_, a, b] => some (a + b)
  | storeArg o, [_] | storeArgSum, [_, o] => some (sp + o)
  | result, [] => some (sp + 0)
  | _, _ => none

/-- Operands can say what the operation works on.  One that adds a wyde has none for what it reads,
numbers are not negative, and data have no addresses here. -/
def Sayable (us ds : List Nat) : Op → Prop
  | increase .. => us = ds
  | storeArg offset => ¬ offset < 0
  | address _ => False
  | _ => True

variable {op : Op} {data : String → Word} {us ds : List Nat} {c : Computer} {w : Machine.World}
  {vs : List Word} {x : Chip} (label : Option String) (h : c.octets.Shows w.memory)
  (hsp : c.registers Register.sp = w.sp) (hop : op.Sayable us ds)
  (hplace : ∀ a, op.place? w.sp (us.map c.registers) = some a → a.toInt % 8 = 0)
  (hc : op.compute data (us.map c.registers) ⟨c.remainder, w⟩ = some (vs, x))
  (hds : ds.length = vs.length)

include h hsp hop hplace hc hds

theorem exec?_form :
    ∃ o ss, op.form = .instr o ss ∧ (∀ s ∈ ss, s.Fits us ds) ∧ ∃ octets,
      c.exec? { label, op := o, args := ss.map (Slot.operand us ds) } = some { c with
        registers := writeAll c.registers ds vs, remainder := x.remainder, octets } ∧
      octets.Shows x.world.memory := by
  have hsp : c.value? (.reg Register.sp) = some w.sp := congrArg some hsp
  -- by the number of registers that are read
  match us with
  | [] =>
    cases op with
    | remainder =>
      cases hc
      have hplain : tick ∉ "rR".toList := by decide
      have hname : Slot.Fits [] ds (.fixed (.sym "rR")) := ⟨hplain, by decide, by decide⟩
      exact ⟨_, _, rfl, by simp [hds, hname], _, congrArg some (c.set_eq hds _), h⟩
    | setLow n =>
      cases hc
      exact ⟨_, _, rfl, by simp [hds], _, congrArg some (c.set_eq hds _), h⟩
    | result =>
      cases hc
      exact ⟨_, _, rfl, by simp [hds], _,
        Computer.exec?_load label hsp rfl rfl h (hplace _ rfl) hds, h⟩
    | address => exact hop.elim
    | arith a => cases a <;> cases hc
    | _ => cases hc
  | [u] =>
    cases op with
    | copy | negate | flip =>
      cases hc
      exact ⟨_, _, rfl, by simp [hds], _, congrArg some (c.set_eq hds _), h⟩
    | test t =>
      cases hc
      refine ⟨_, _, rfl, by simp [hds], _, ?_, h⟩
      cases t <;> simp [Computer.exec?, Test.opcode, Computer.compute?, Computer.value?,
        Slot.operand, Test.holds, Word.ofBool, ← c.set_eq hds]
    | increase place n =>
      cases hc
      obtain rfl : [u] = ds := hop
      refine ⟨_, _, rfl, by simp, _, ?_, h⟩
      rw [← c.set_eq hds]
      cases place <;> rfl
    | load =>
      cases hc
      exact ⟨_, _, rfl, by simp [hds], _,
        Computer.exec?_load label rfl rfl (Int64.add_zero _) h (hplace _ rfl) hds, h⟩
    | storeArg offset =>
      cases hc
      have hoffset : Mmix.Operand.ofWord offset = .num (Word.magnitude offset) := if_neg hop
      have hvalue : c.value? (.ofWord offset) = some offset := by
        rw [hoffset, Computer.value?, Word.ofNat_magnitude, if_neg hop]
      exact ⟨_, _, rfl, by simp [hoffset], _, Computer.exec?_store label hsp hvalue rfl hds u,
        h.store (hplace _ rfl) _⟩
    | arith a => cases a <;> cases hc
    | _ => cases hc
  | [u, u'] =>
    cases op with
    | arith a =>
      cases a <;> cases hc
      all_goals exact ⟨_, _, rfl, by simp [hds], _, congrArg some (Computer.set_eq _ hds _), h⟩
    | compare =>
      cases hc
      exact ⟨_, _, rfl, by simp [hds], _, congrArg some (c.set_eq hds _), h⟩
    | loadSum =>
      cases hc
      exact ⟨_, _, rfl, by simp [hds], _,
        Computer.exec?_load label rfl rfl rfl h (hplace _ rfl) hds, h⟩
    | store =>
      cases hc
      exact ⟨_, _, rfl, by simp, _, Computer.exec?_store label rfl rfl (Int64.add_zero _) hds u,
        h.store (hplace _ rfl) _⟩
    | storeArgSum =>
      cases hc
      exact ⟨_, _, rfl, by simp, _, Computer.exec?_store label hsp rfl rfl hds u,
        h.store (hplace _ rfl) _⟩
    | _ => cases hc
  | [u, u', u''] =>
    cases op with
    | storeSum =>
      cases hc
      exact ⟨_, _, rfl, by simp, _, Computer.exec?_store label rfl rfl rfl hds u,
        h.store (hplace _ rfl) _⟩
    | arith a => cases a <;> cases hc
    | _ => cases hc
  | _ :: _ :: _ :: _ :: _ =>
    cases op with
    | arith a => cases a <;> cases hc
    | _ => cases hc

omit h hsp hop hplace hc hds in
theorem slots_ne_nil {o : Mmix.Opcode} {ss : List Slot} (h : op.form = .instr o ss) :
    ss ≠ [] := by
  rintro rfl
  cases op <;> cases h

/-- The line of an operation is read back as an instruction that does what the operation
computes. -/
theorem exec?_instrLine {a : Allocation} {ts ts' : List Temp} (names : Names) (js : List Label)
    (hus : ts.map (a.registers.getD · 0) = us) (hts : ts'.map (a.registers.getD · 0) = ds) :
    ∃ i octets, (Assembly.instrLine names a label (.oper op ts ts' js)).instr? = some i ∧
      i.label = label ∧ c.exec? i = some { c with
        registers := writeAll c.registers ds vs, remainder := x.remainder, octets } ∧
      octets.Shows x.world.memory := by
  obtain ⟨o, ss, hform, hfits, octets, hexec, hshows⟩ := exec?_form label h hsp hop hplace hc hds
  refine ⟨_, octets, ?_, rfl, hexec, hshows⟩
  rw [Assembly.instrLine_oper names label js hform hus hts hfits]
  refine Mmix.Instr.instr?_line (by simpa using slots_ne_nil hform) fun o ho => ?_
  obtain ⟨s, hs, rfl⟩ := List.mem_map.mp ho
  exact (hfits s hs).legible

end Op

end MmixBackend
