import MmixBackend.Proofs.Computer
import MmixBackend.Proofs.Places

/-!
# Entering a function

A function is entered by its prologue, which ends in a jump to the body.

Main statement: the prologue of a function stores the caller's frame pointer and the return address
where its frame has room for them, makes the stack pointer the frame pointer, and moves the stack
pointer down by the size of the frame with its spill slots.
-/

namespace MmixBackend

open Mmix (Computer)

/-- Bytes from the stack pointer to the frame pointer. -/
def Code.room (c : Code) : Int := c.frame.size.toInt + c.spillSize.toInt

/-- A frame was made: from `p` to `p'` the caller's frame pointer and the return address are saved
below the local variables, and the stack pointer goes from the new frame pointer down. -/
structure Code.Enters (c : Code) (p p' : Computer) : Prop where
  fp : p'.registers Register.fp = p.registers Register.sp
  sp : ∃ room : Word, room.toInt = c.room ∧
    p'.registers Register.sp = p.registers Register.sp - room
  octets : ∃ savedFp savedReturn : Word, savedFp.toInt = -c.frame.locals.toInt - 8 ∧
    savedReturn.toInt = -c.frame.locals.toInt - 16 ∧
    p'.octets = (p.octets.storeWord (p.registers Register.sp + savedFp)
      (p.registers Register.fp)).storeWord (p.registers Register.sp + savedReturn) p.returns

namespace Assembly

/-- The prologue has two constants: where the frame pointer is saved, and the size of the frame. -/
theorem prologue_ok {names : Names} {c : Code} {is : List Mmix.Instr}
    (h : prologue names c = .ok is) :
    ∃ saved room : Word, saved.toInt = -c.frame.locals.toInt - 8 ∧ room.toInt = c.room ∧
      is = Mmix.loadValue (some (names.textOf c.frame.label)) saved ++ saving ++
        Mmix.loadValue none room ++ lowering ++
        [{ op := .jmp, args := [.sym (names.textOf c.entry)] }] := by
  obtain ⟨below, hbelow, h⟩ := except_bind_ok.mp h
  obtain ⟨saved, hsaved, h⟩ := except_bind_ok.mp h
  obtain ⟨room, hroom, h⟩ := except_bind_ok.mp h
  cases h
  have hbelowInt := Word.toInt_checkedNeg hbelow
  have hsavedInt := Word.toInt_checkedSub hsaved
  have hword : Word.size.toInt = 8 := rfl
  exact ⟨saved, room, by omega, Word.toInt_checkedAdd hroom, rfl⟩

/-- What saving comes to with the offset `v`. -/
def afterSaving (p : Computer) (v : Word) : Computer :=
  { p with
    registers := Function.update (Function.update (Function.update p.registers 0
      (p.registers Register.sp + v - 8)) 1 p.returns) Register.fp (p.registers Register.sp)
    octets := (p.octets.storeWord (p.registers Register.sp + v)
      (p.registers Register.fp)).storeWord (p.registers Register.sp + v - 8) p.returns }

theorem execs?_saving (p : Computer) (v : Word) :
    (p.set 0 v).execs? saving = some (afterSaving p v) := by
  simp [saving, afterSaving, Computer.exec?, Computer.compute?, Computer.store?, Computer.copy?,
    Computer.get?, Computer.value?, Computer.set, Register.sp, Register.fp]

theorem execs?_lowering (p : Computer) (v : Word) :
    (p.set 0 v).execs? lowering =
      some ((p.set 0 v).set Register.sp (p.registers Register.sp - v)) := by
  simp [lowering, Computer.exec?, Computer.compute?, Computer.value?, Computer.set, Register.sp]

/-- Up to the jump to the entry, the prologue makes the frame. -/
theorem execs?_prologue {names : Names} {c : Code} {is : List Mmix.Instr}
    (h : prologue names c = .ok is) (hlow : Int64.minValue.toInt ≤ -c.frame.locals.toInt - 16)
    (p : Computer) :
    ∃ straight p', is = straight ++ [{ op := .jmp, args := [.sym (names.textOf c.entry)] }] ∧
      p.execs? straight = some p' ∧ c.Enters p p' := by
  obtain ⟨saved, room, hsaved, hroom, rfl⟩ := prologue_ok h
  have hsp : (afterSaving p saved).registers Register.sp = p.registers Register.sp := by
    simp [afterSaving, Register.sp, Register.fp]
  -- the address below the saved frame pointer is a word
  have hreturn : (saved - 8).toInt = -c.frame.locals.toInt - 16 := by
    have hmin := Int64.toInt_minValue
    have hle := Int64.toInt_lt saved
    have height : (8 : Word).toInt = 8 := rfl
    rw [Int64.toInt_sub, height, Int.bmod_eq_of_le] <;> omega
  refine ⟨_, ((afterSaving p saved).set 0 room).set Register.sp (p.registers Register.sp - room),
    rfl, ?_, rfl, ⟨room, hroom, rfl⟩, ⟨saved, saved - 8, hsaved, hreturn, ?_⟩⟩
  · rw [List.append_assoc, List.append_assoc,
      Computer.execs?_append (Computer.execs?_loadValue _ _ _),
      Computer.execs?_append (execs?_saving _ _),
      Computer.execs?_append (Computer.execs?_loadValue _ _ _), execs?_lowering, hsp]
  · show (afterSaving p saved).octets = _
    rw [afterSaving, Int64.sub_eq_add_neg (p.registers Register.sp + saved),
      Int64.sub_eq_add_neg saved, Int64.add_assoc]

end Assembly

end MmixBackend
