import MmixBackend.Proofs.Emission
import MmixBackend.Proofs.Prologue

/-!
# The calling convention

A function finds the caller's stack pointer in SP and the caller's frame pointer in FP.  It saves FP
and the return address below its local variables and moves both pointers; at its end it leaves its
result where the caller's stack pointer was, and gives the caller both pointers back.

Main statement: so it is for every size of the frame and of the spill
slots, with a result in a register or in a slot, and whatever the body did to SP, to other registers
and to memory other than the two words that are saved.
-/

namespace MmixBackend

open Mmix (Computer)

/-! ## Frames -/

namespace Code

variable (c : Code)

/-- Where the caller's frame pointer is saved, from the new one. -/
def savedFp (fp : Word) : Word := fp - c.frame.locals - 8

def savedReturn (fp : Word) : Word := fp - c.frame.locals - 16

/-- No offset overflows that makes a frame or undoes it. -/
structure Addressable : Prop where
  locals : 0 ≤ c.frame.locals.toInt
  low : Int64.minValue.toInt ≤ -c.frame.locals.toInt - 16
  room : Int64.minValue.toInt ≤ c.room ∧ c.room ≤ Int64.maxValue.toInt

/-- A function was entered from `p`. -/
structure Entered (p p' : Computer) : Prop where
  fp : p'.registers Register.fp = p.registers Register.sp
  sp : p'.registers Register.sp = p.registers Register.sp - c.frame.size - c.spillSize
  savedFp : p'.octets.word (c.savedFp (p.registers Register.sp)) = p.registers Register.fp
  savedReturn : p'.octets.word (c.savedReturn (p.registers Register.sp)) = p.returns
  others : ∀ b : Word, b.octa ≠ (c.savedFp (p.registers Register.sp)).octa →
    b.octa ≠ (c.savedReturn (p.registers Register.sp)).octa → p'.octets b = p.octets b

/-- The frame pointer and what was saved are in `q` as in `p`. -/
structure Keeps (p q : Computer) : Prop where
  fp : q.registers Register.fp = p.registers Register.fp
  savedFp : q.octets.word (c.savedFp (p.registers Register.fp)) =
    p.octets.word (c.savedFp (p.registers Register.fp))
  savedReturn : q.octets.word (c.savedReturn (p.registers Register.fp)) =
    p.octets.word (c.savedReturn (p.registers Register.fp))

end Code

/-- A function that was entered from `p` left `q` for `q'` with a result. -/
structure Mmix.Computer.Returned (p q q' : Computer) (result : Word) : Prop where
  sp : q'.registers Register.sp = p.registers Register.sp
  fp : q'.registers Register.fp = p.registers Register.fp
  result : q'.octets.word (p.registers Register.sp) = result
  others : ∀ b : Word, b.octa ≠ (p.registers Register.sp).octa → q'.octets b = q.octets b

/-- The return value at the end of a function, in its register or in its slot. -/
def Allocation.result (a : Allocation) (q : Computer) : Word :=
  match a.register? a.code.frame.rv with
  | some r => q.registers r
  | none => q.octets.word (q.registers Register.fp + a.code.slots.getD a.code.frame.rv 0)

namespace Code

variable {c : Code} {saved room : Word}

/-- An offset that is given as a number is taken off as a word. -/
theorem add_below {n : Word} (h : saved.toInt = -c.frame.locals.toInt - n.toInt) (a : Word) :
    a + saved = a - c.frame.locals - n := by
  have hword : saved = -c.frame.locals - n := by
    rw [← Int64.ofInt_toInt saved, h, Int64.ofInt_sub, Int64.ofInt_neg, Int64.ofInt_toInt,
      Int64.ofInt_toInt]
  rw [hword]
  grind

theorem add_savedFp (h : saved.toInt = -c.frame.locals.toInt - 8) (a : Word) :
    a + saved = c.savedFp a := add_below h a

theorem add_savedReturn (h : saved.toInt = -c.frame.locals.toInt - 16) (a : Word) :
    a + saved = c.savedReturn a := add_below h a

theorem savedFp_eq (a : Word) : c.savedFp a = c.savedReturn a + 8 := by
  unfold savedFp savedReturn
  grind

theorem sub_room (h : room.toInt = c.room) (a : Word) :
    a - room = a - c.frame.size - c.spillSize := by
  have hword : room = c.frame.size + c.spillSize := by
    rw [← Int64.ofInt_toInt room, h, Code.room, Int64.ofInt_add, Int64.ofInt_toInt,
      Int64.ofInt_toInt]
  rw [hword]
  grind

/-- What was saved is found again, and nothing else has changed. -/
theorem Enters.entered {p p' : Computer} (h : c.Enters p p') : c.Entered p p' := by
  obtain ⟨hfp, ⟨room, hroom, hsp⟩, savedFp, savedReturn, hsavedFp, hsavedReturn, hoctets⟩ := h
  rw [add_savedFp hsavedFp, add_savedReturn hsavedReturn] at hoctets
  have hapart : (c.savedFp (p.registers Register.sp)).octa ≠
      (c.savedReturn (p.registers Register.sp)).octa := by
    rw [savedFp_eq]
    exact Word.octa_add_ne _ (by decide)
  refine ⟨hfp, hsp.trans (sub_room hroom _), ?_, ?_, fun b hb hb' => ?_⟩
  · rw [hoctets, Mmix.Octets.word_storeWord_of_ne _ _ hapart, Mmix.Octets.word_storeWord_self]
  · rw [hoctets, Mmix.Octets.word_storeWord_self]
  · rw [hoctets, Mmix.Octets.storeWord_of_ne _ _ hb', Mmix.Octets.storeWord_of_ne _ _ hb]

end Code

namespace Assembly

variable {names : Names} {a : Allocation} {c : Code}

/-! ## The start of a function -/

/-- A frame whose offsets are words has a start and an end. -/
theorem exists_prologue (names : Names) (h : c.Addressable) :
    ∃ start finish, prologue names c = .ok start ∧ restore c = .ok finish := by
  obtain ⟨hlocals, hlow, hroom⟩ := h
  have hmin := Int64.toInt_minValue
  have hmax := Int64.toInt_maxValue
  have height : Word.size.toInt = 8 := by decide
  have hsixteen : (16 : Word).toInt = 16 := by decide
  obtain ⟨below, hbelow, hb⟩ := Word.exists_exact .neg (-c.frame.locals.toInt) (by omega) (by omega)
  obtain ⟨savedFp, hfp, -⟩ := Word.exists_exact .sub (below.toInt - Word.size.toInt)
    (by omega) (by omega)
  obtain ⟨savedReturn, hreturn, -⟩ := Word.exists_exact .sub (below.toInt - (16 : Word).toInt)
    (by omega) (by omega)
  obtain ⟨room, hsum, -⟩ := Word.exists_exact .add c.room hroom.1 hroom.2
  exact ⟨_, _,
    except_bind_ok.mpr ⟨below, hbelow, except_bind_ok.mpr
      ⟨savedFp, (Word.checkedSub_eq _ _).trans hfp, except_bind_ok.mpr
        ⟨room, (Word.checkedAdd_eq _ _).trans hsum, rfl⟩⟩⟩,
    except_bind_ok.mpr ⟨below, hbelow, except_bind_ok.mpr
      ⟨savedReturn, (Word.checkedSub_eq _ _).trans hreturn, except_bind_ok.mpr
        ⟨savedFp, (Word.checkedSub_eq _ _).trans hfp, rfl⟩⟩⟩⟩

theorem run?_prologue {is : List Mmix.Instr} (h : prologue names c = .ok is) (hc : c.Addressable)
    (p : Computer) :
    ∃ p', p.run? is = some (.jump (names.textOf c.entry), p') ∧ c.Entered p p' := by
  obtain ⟨straight, p', rfl, hexec, hp⟩ := execs?_prologue h hc.low p
  exact ⟨p', Computer.run?_append hexec _, hp.entered⟩

/-! ## The end of a function -/

/-- The result is stored at the frame pointer, wherever it is. -/
theorem execs?_storeResult {exit : String} {stored : List Mmix.Instr}
    (h : storeResult exit a = some stored) (q : Computer) :
    ∃ q' : Computer, q.execs? stored = some q' ∧
      q'.registers Register.fp = q.registers Register.fp ∧
      q'.octets = q.octets.storeWord (q.registers Register.fp) (a.result q) := by
  simp only [storeResult] at h
  split at h
  · next r hr =>
    cases h
    refine ⟨{ q with octets := q.octets.storeWord (q.registers Register.fp) (q.registers r) }, ?_,
      rfl, ?_⟩
    · simp [Computer.exec?, Computer.store?, Computer.value?]
    · rw [Allocation.result, hr]
  · next slot hr hslot =>
    cases h
    have hresult : a.result q = q.octets.word (q.registers Register.fp + slot) := by
      rw [Allocation.result, hr, Std.ExtTreeMap.getD_eq_getD_getElem?, hslot]
      rfl
    refine ⟨{ q.set 0 (a.result q) with
      octets := q.octets.storeWord (q.registers Register.fp) (a.result q) }, ?_, rfl, rfl⟩
    rw [Computer.execs?_append (Computer.execs?_loadValue _ _ _), hresult]
    simp [Computer.exec?, Computer.compute?, Computer.store?, Computer.value?, Computer.set,
      Register.fp]
  · cases h

/-- The end of a function has two constants: where the return address and the frame pointer are. -/
theorem restore_ok {is : List Mmix.Instr} (h : restore c = .ok is) :
    ∃ savedReturn savedFp : Word, savedReturn.toInt = -c.frame.locals.toInt - 16 ∧
      savedFp.toInt = -c.frame.locals.toInt - 8 ∧
      is = Mmix.loadValue none savedReturn ++ returning ++ Mmix.loadValue none savedFp ++
        leaving := by
  obtain ⟨below, hbelow, h⟩ := except_bind_ok.mp h
  obtain ⟨savedReturn, hreturn, h⟩ := except_bind_ok.mp h
  obtain ⟨savedFp, hfp, h⟩ := except_bind_ok.mp h
  cases h
  have hbelowInt := Word.toInt_checkedNeg hbelow
  have hreturnInt := Word.toInt_checkedSub hreturn
  have hfpInt := Word.toInt_checkedSub hfp
  have height : Word.size.toInt = 8 := rfl
  have hsixteen : (16 : Word).toInt = 16 := rfl
  exact ⟨savedReturn, savedFp, by omega, by omega, rfl⟩

/-- What comes of the offset `v` of the return address. -/
def withReturn (q : Computer) (v : Word) : Computer :=
  { q with
    registers := Function.update
      (Function.update q.registers 0 (q.octets.word (q.registers Register.fp + v))) Register.sp
      (q.registers Register.fp)
    returns := q.octets.word (q.registers Register.fp + v) }

theorem execs?_returning (q : Computer) (v : Word) :
    (q.set 0 v).execs? returning = some (withReturn q v) := by
  simp [returning, withReturn, Computer.exec?, Computer.compute?, Computer.put?, Computer.copy?,
    Computer.value?, Computer.set, Register.sp, Register.fp]

theorem run?_leaving (q : Computer) (v : Word) :
    (q.set 0 v).run? leaving = some (.back q.returns,
      (q.set 0 v).set Register.fp (q.octets.word (q.registers Register.fp + v))) := by
  simp [leaving, Computer.run?, Computer.departure?, Computer.exec?, Computer.compute?,
    Computer.value?, Computer.set, Register.fp]

/-- The stack pointer becomes the frame pointer; the return address and the caller's frame pointer
are what was saved. -/
theorem run?_restore {is : List Mmix.Instr} (h : restore c = .ok is) (q : Computer) :
    ∃ q', q.run? is = some (.back (q.octets.word (c.savedReturn (q.registers Register.fp))), q') ∧
      q'.registers Register.sp = q.registers Register.fp ∧
      q'.registers Register.fp = q.octets.word (c.savedFp (q.registers Register.fp)) ∧
      q'.octets = q.octets := by
  obtain ⟨savedReturn, savedFp, hreturn, hfp, rfl⟩ := restore_ok h
  rw [← Code.add_savedReturn hreturn, ← Code.add_savedFp hfp]
  refine ⟨((withReturn q savedReturn).set 0 savedFp).set Register.fp
    (q.octets.word (q.registers Register.fp + savedFp)), ?_, rfl, rfl, rfl⟩
  rw [List.append_assoc, List.append_assoc,
    Computer.run?_append (Computer.execs?_loadValue _ _ _),
    Computer.run?_append (execs?_returning _ _),
    Computer.run?_append (Computer.execs?_loadValue _ _ _), run?_leaving]
  rfl

/-- The end of a function comes back to the caller, if what was saved is still there. -/
theorem run?_epilogue {exit : String} {stored finish : List Mmix.Instr} (hc : a.code.Addressable)
    (hstored : storeResult exit a = some stored) (hfinish : restore a.code = .ok finish)
    {p p' q : Computer} (hp : a.code.Entered p p') (hq : a.code.Keeps p' q) :
    ∃ q', q.run? (stored ++ finish) = some (.back p.returns, q') ∧
      p.Returned q q' (a.result q) := by
  obtain ⟨hfp, hsavedFp, hsavedReturn⟩ := hq
  rw [hp.fp] at hfp hsavedFp hsavedReturn
  obtain ⟨q₁, hexec, hfp₁, hoctets⟩ := execs?_storeResult hstored q
  obtain ⟨q₂, hrun₂, hsp₂, hfp₂, hoctets₂⟩ := run?_restore hfinish q₁
  obtain ⟨savedReturn, savedFp, hreturn, hframe, -⟩ := restore_ok hfinish
  have hlocals := hc.locals
  -- the result goes into none of the saved words
  have hapart : (a.code.savedReturn (p.registers Register.sp)).octa ≠
      (p.registers Register.sp).octa := by
    rw [← Code.add_savedReturn hreturn]
    exact Word.octa_add_ne _ (by omega)
  have hapart' : (a.code.savedFp (p.registers Register.sp)).octa ≠
      (p.registers Register.sp).octa := by
    rw [← Code.add_savedFp hframe]
    exact Word.octa_add_ne _ (by omega)
  rw [hfp] at hfp₁ hoctets
  refine ⟨q₂, ?_, by rw [hsp₂, hfp₁], ?_, ?_, ?_⟩
  · rw [Computer.run?_append hexec, hrun₂, hfp₁, hoctets,
      Mmix.Octets.word_storeWord_of_ne _ _ hapart, hsavedReturn, hp.savedReturn]
  · rw [hfp₂, hfp₁, hoctets, Mmix.Octets.word_storeWord_of_ne _ _ hapart', hsavedFp, hp.savedFp]
  · rw [hoctets₂, hoctets, Mmix.Octets.word_storeWord_self]
  · intro b hb
    rw [hoctets₂, hoctets, Mmix.Octets.storeWord_of_ne _ _ hb]

/-- The calling convention: a function whose offsets are words, and that has a place for its result,
is emitted with a start and an end.  From the start, labelled by the function, control goes to the
entry with the caller's frame pointer and the return address saved, the frame pointer where the
stack pointer was, and the stack pointer below the frame and the spill slots.  If the end, labelled
by the exit, is come to with the frame pointer and what was saved as they were, then control goes
back to the return address with the result where the stack pointer was, and both pointers as they
were; all other memory is as the body left it. -/
theorem calling_convention (names : Names) (a : Allocation) (hframe : a.code.Addressable)
    (hrv : (a.register? a.code.frame.rv).isSome ∨ a.code.frame.rv ∈ a.code.slots) :
    ∃ start stored finish, prologue names a.code = .ok start ∧
      storeResult (names.textOf a.code.exit) a = some stored ∧ restore a.code = .ok finish ∧
      (∀ inner st, body names a = .ok inner → function names a st =
        .ok (start.map (·.line) ++ inner ++ (stored ++ finish).map (·.line)) st) ∧
      start.head?.bind (·.label) = some (names.textOf a.code.frame.label) ∧
      stored.head?.bind (·.label) = some (names.textOf a.code.exit) ∧
      ∀ p : Computer, ∃ p', p.run? start = some (.jump (names.textOf a.code.entry), p') ∧
        a.code.Entered p p' ∧
        ∀ q, a.code.Keeps p' q → ∃ q', q.run? (stored ++ finish) = some (.back p.returns, q') ∧
          p.Returned q q' (a.result q) := by
  obtain ⟨start, finish, hstart, hfinish⟩ := exists_prologue names hframe
  obtain ⟨stored, hstored⟩ := exists_storeResult (names.textOf a.code.exit) hrv
  refine ⟨start, stored, finish, hstart, hstored, hfinish, ?_, ?_, head_storeResult hstored, ?_⟩
  · intro inner st hbody
    simp only [function, hstart, hbody, hstored, hfinish]
    rfl
  · obtain ⟨saved, room, -, -, rfl⟩ := prologue_ok hstart
    simp only [List.append_assoc]
    exact Mmix.head_loadValue _ _ _
  · intro p
    obtain ⟨p', hrun, hp⟩ := run?_prologue hstart hframe p
    exact ⟨p', hrun, hp, fun q hq => run?_epilogue hframe hstored hfinish hp hq⟩

/-- A frame whose offsets take three wydes, with a result that was spilled. -/
def deep : Allocation where
  code := { name := "_f", frame := ⟨⟨0⟩, 0, 1099511627776, 8, 1099511627800, ⟨0⟩, ⟨1⟩⟩,
            entry := ⟨1⟩, exit := ⟨2⟩, instrs := [], spillSize := 8,
            slots := (∅ : Table Temp Word).insert ⟨1⟩ (-1099511627800) }
  registers := ∅
  liveness := {}
  rounds := 1

/-- A caller with its stack pointer below its frame pointer. -/
def caller : Computer where
  registers := fun r => if r = Register.sp then 0x3000000000000000 else 0x3000000000000100
  returns := 4096
  remainder := 0
  octets := fun _ => 0
  input := []
  output := []

/-- A body that loses the stack pointer and leaves a result in the slot. -/
def loseStack (p : Computer) : Computer :=
  { p.set Register.sp 7 with
    octets := p.octets.storeWord (p.registers Register.fp - 1099511627800) 42 }

theorem calling_convention_deep :
    deep.code.Addressable ∧ deep.code.frame.rv ∈ deep.code.slots ∧
      ∃ start stored finish, prologue {} deep.code = .ok start ∧
        storeResult (Names.textOf {} deep.code.exit) deep = some stored ∧
        restore deep.code = .ok finish ∧
        ∃ p' q', caller.run? start = some (.jump (Names.textOf {} deep.code.entry), p') ∧
          p'.registers Register.sp = 0x2fffffffffffffe8 - 1099511627776 - 8 ∧
          (loseStack p').run? (stored ++ finish) = some (.back 4096, q') ∧
          q'.octets.word 0x3000000000000000 = 42 ∧
          q'.registers Register.sp = 0x3000000000000000 ∧
          q'.registers Register.fp = 0x3000000000000100 := by
  have hframe : deep.code.Addressable := ⟨by decide, by decide, by decide⟩
  have hrv : deep.code.frame.rv ∈ deep.code.slots := Std.ExtTreeMap.mem_insert_self
  obtain ⟨start, stored, finish, hstart, hstored, hfinish, -, -, -, hruns⟩ :=
    calling_convention {} deep hframe (.inr hrv)
  obtain ⟨p', hrun, hentered, hback⟩ := hruns caller
  have hkeeps : deep.code.Keeps p' (loseStack p') := by
    refine ⟨rfl, ?_, ?_⟩
    all_goals
      rw [hentered.fp]
      refine Mmix.Octets.word_storeWord_of_ne _ _ ?_
      rw [hentered.fp]
      decide
  have hresult : deep.result (loseStack p') = 42 := by
    have hregister : deep.register? deep.code.frame.rv = none := Std.ExtTreeMap.getElem?_empty
    have hslot : deep.code.slots.getD deep.code.frame.rv 0 = -1099511627800 :=
      Std.ExtTreeMap.getD_insert_self
    rw [Allocation.result, hregister, hslot]
    show (p'.octets.storeWord (p'.registers Register.fp - 1099511627800) 42).word
      (p'.registers Register.fp + -1099511627800) = 42
    rw [← Int64.sub_eq_add_neg, Mmix.Octets.word_storeWord_self]
  obtain ⟨q', hrun', hleft⟩ := hback _ hkeeps
  exact ⟨hframe, hrv, start, stored, finish, hstart, hstored, hfinish, p', q', hrun, hentered.sp,
    hrun', hleft.result.trans hresult, hleft.sp, hleft.fp⟩

end Assembly

end MmixBackend
