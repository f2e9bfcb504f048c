import MmixBackend.Proofs.Liveness

/-!
# Liveness along paths

Control goes from an instruction to its successors, and beyond the exit label out of the function.
A temporary is live at a place exactly when a path leads from there to a place that reads it and
passes no instruction that writes it.

Sets that solve the equations of liveness hold every temporary that is live along a path: the path
is followed backward.  Being live along a path solves the equations too, and the sets that passes
end with are the least that do.
-/

namespace MmixBackend

namespace Code

/-! ## Paths -/

/-- Control may go from the instruction at a position to a place.  A label that is neither the exit
label nor in the code leads nowhere. -/
inductive Follows (c : Code) (i : Nat) : Successor → Prop
  | next {instr : Instr} (hi : c.instrs[i]? = some instr) (hnext : instr.jumps = [] ∨ instr.isCall)
      (hlt : i + 1 < c.instrs.length) : Follows c i (.instr (i + 1))
  | jump {instr : Instr} {l : Label} {j : Nat} (hi : c.instrs[i]? = some instr)
      (hcall : ¬ instr.isCall) (hl : l ∈ instr.jumps) (hne : l ≠ c.exit)
      (hj : LastAt c.instrs l j) : Follows c i (.instr j)
  | leave {instr : Instr} (hi : c.instrs[i]? = some instr) (hcall : ¬ instr.isCall)
      (hl : c.exit ∈ instr.jumps) : Follows c i .exit

/-- A path from a place to a place, with the positions of the instructions that it passes: all but
the one it ends at. -/
inductive Path (c : Code) : Successor → List Nat → Successor → Prop
  | here (p : Successor) : Path c p [] p
  | step {i : Nat} {p q : Successor} {passed : List Nat} (h : c.Follows i p)
      (rest : Path c p passed q) : Path c (.instr i) (i :: passed) q

/-- The temporary is read at a place: by the instruction there, or as the return value. -/
def Reads (c : Code) (t : Temp) : Successor → Prop
  | .instr i => ∃ instr, c.instrs[i]? = some instr ∧ t ∈ instr.uses
  | .exit => t = c.frame.rv ∧ c.frame.rv ∉ c.slots

/-- The instruction at a position writes the temporary. -/
def Writes (c : Code) (t : Temp) (i : Nat) : Prop :=
  ∃ instr, c.instrs[i]? = some instr ∧ t ∈ instr.defs

/-- A path leads from the place to one that reads the temporary, and nothing on it writes the
temporary. -/
def LiveBefore (c : Code) (p : Successor) (t : Temp) : Prop :=
  ∃ passed q, c.Path p passed q ∧ (∀ i ∈ passed, ¬ c.Writes t i) ∧ c.Reads t q

/-- The temporary is live before a place that may follow the instruction. -/
def LiveAfter (c : Code) (i : Nat) (t : Temp) : Prop :=
  ∃ p, c.Follows i p ∧ c.LiveBefore p t

variable {c : Code} {t : Temp} {i : Nat} {p : Successor}

theorem liveBefore_exit : c.LiveBefore .exit t ↔ t = c.frame.rv ∧ c.frame.rv ∉ c.slots := by
  constructor
  · rintro ⟨passed, q, hpath, -, hread⟩
    cases hpath
    exact hread
  · intro h
    exact ⟨[], .exit, .here _, by simp, h⟩

theorem liveBefore_instr :
    c.LiveBefore (.instr i) t ↔ c.Reads t (.instr i) ∨ ¬ c.Writes t i ∧ c.LiveAfter i t := by
  constructor
  · rintro ⟨passed, q, hpath, hkeep, hread⟩
    cases hpath with
    | here => exact Or.inl hread
    | step h rest =>
      have hkept : ∀ j ∈ _, ¬ c.Writes t j := fun j hj => hkeep j (List.mem_cons_of_mem _ hj)
      exact Or.inr ⟨hkeep i List.mem_cons_self, _, h, _, q, rest, hkept, hread⟩
  · rintro (hread | ⟨hw, p, hp, passed, q, rest, hkept, hread⟩)
    · exact ⟨[], _, .here _, by simp, hread⟩
    · exact ⟨i :: passed, q, .step hp rest, List.forall_mem_cons.mpr ⟨hw, hkept⟩, hread⟩

theorem Follows.lt (h : c.Follows i p) : i < c.instrs.length := by
  cases h with
  | next hi | jump hi | leave hi => exact (List.getElem?_eq_some_iff.mp hi).1

/-! ## Successors in the flow -/

theorem target?_eq_some {l : Label} :
    c.target? (labelsFrom 0 ∅ c.instrs) l = some p ↔
      l = c.exit ∧ p = .exit ∨ l ≠ c.exit ∧ ∃ j, LastAt c.instrs l j ∧ p = .instr j := by
  rw [target?]
  split
  · next h => simp [h, eq_comm]
  · next h =>
    rw [Option.map_eq_some_iff]
    simp only [getElem?_labels, eq_comm (b := p)]
    simp [h]

/-- A jump leads to where its labels do. -/
theorem mem_successors_of_jump {instr : Instr} {l : Label} (hi : c.instrs[i]? = some instr)
    (hcall : ¬ instr.isCall) (hl : l ∈ instr.jumps)
    (hp : c.target? (labelsFrom 0 ∅ c.instrs) l = some p) : p ∈ c.flow.successors.getD i [] := by
  have hjumps : ¬ (instr.jumps.isEmpty || instr.isCall) := by
    simpa [hcall] using List.ne_nil_of_mem hl
  rw [flow_successors hi, successorsAt, if_neg hjumps]
  exact List.mem_filterMap.mpr ⟨l, hl, hp⟩

theorem mem_flow_successors : p ∈ c.flow.successors.getD i [] ↔ c.Follows i p := by
  constructor
  · intro hp
    rcases Nat.lt_or_ge i c.instrs.length with hlt | hge
    · have hi := List.getElem?_eq_getElem hlt
      rw [flow_successors hi, successorsAt] at hp
      split at hp
      · next hnext =>
        have hnext : c.instrs[i].jumps = [] ∨ c.instrs[i].isCall := by simpa using hnext
        split at hp
        · next hin =>
          obtain rfl := List.mem_singleton.mp hp
          exact .next hi hnext hin
        · cases hp
      · next hjumps =>
        have hcall : ¬ c.instrs[i].isCall := fun h => hjumps (by simp [h])
        obtain ⟨l, hl, htarget⟩ := List.mem_filterMap.mp hp
        rcases target?_eq_some.mp htarget with ⟨rfl, rfl⟩ | ⟨hne, j, hj, rfl⟩
        · exact .leave hi hcall hl
        · exact .jump hi hcall hl hne hj
    · rw [flow_successors_of_le hge] at hp
      cases hp
  · intro h
    cases h with
    | @next instr hi hnext hlt =>
      have hnext : instr.jumps.isEmpty || instr.isCall := by simpa using hnext
      rw [flow_successors hi, successorsAt, if_pos hnext, if_pos hlt]
      exact List.mem_singleton_self _
    | @jump instr l j hi hcall hl hne hj =>
      exact mem_successors_of_jump hi hcall hl (target?_eq_some.mpr (Or.inr ⟨hne, j, hj, rfl⟩))
    | leave hi hcall hl =>
      exact mem_successors_of_jump hi hcall hl (target?_eq_some.mpr (Or.inl ⟨rfl, rfl⟩))

/-! ## The equations of liveness -/

/-- What is live before a place, for given temporaries before each instruction. -/
def before (c : Code) (inn : Nat → Temp → Prop) : Successor → Temp → Prop
  | .instr i => inn i
  | .exit => fun t => t = c.frame.rv ∧ c.frame.rv ∉ c.slots

/-- Temporaries before and after each instruction solve the equations: after an instruction is what
is before the places that may follow, and before it what it reads and what is after it and not
written by it. -/
structure Equations (c : Code) (inn out : Nat → Temp → Prop) : Prop where
  after : ∀ i, i < c.instrs.length → ∀ t, out i t ↔ ∃ p, c.Follows i p ∧ c.before inn p t
  before : ∀ i instr, c.instrs[i]? = some instr → ∀ t,
    inn i t ↔ t ∈ instr.uses ∨ t ∉ instr.defs ∧ out i t

/-- What the sets that passes end with hold before and after an instruction. -/
abbrev isLiveIn (c : Code) (i : Nat) (t : Temp) : Prop := t ∈ c.liveness.liveIn.getD i ∅

@[inherit_doc isLiveIn]
abbrev isLiveOut (c : Code) (i : Nat) (t : Temp) : Prop := t ∈ c.liveness.liveOut.getD i ∅

theorem mem_liveAt (inn : Array TempSet) :
    t ∈ c.flow.liveAt inn p ↔ c.before (fun i t => t ∈ inn.getD i ∅) p t := by
  cases p with
  | instr j => exact Iff.rfl
  | exit => exact mem_liveAtExit

theorem liveness_equations (c : Code) : c.Equations c.isLiveIn c.isLiveOut := by
  have hsolved := c.liveness_solved
  constructor
  · intro i hi t
    rw [isLiveOut, hsolved.out i (by simpa using hi), Flow.mem_out]
    simp only [mem_flow_successors, mem_liveAt]
  · intro i instr hi t
    rw [isLiveIn, hsolved.inn i instr (by simpa using hi), Instr.mem_through]

/-- What solves the equations is closed under the flow. -/
theorem Equations.closed {inn out : Nat → Temp → Prop} (h : c.Equations inn out) :
    c.flow.Closed inn out where
  flows i p hp t ht := by
    have hp := mem_flow_successors.mp hp
    refine (h.after i hp.lt t).mpr ⟨p, hp, ?_⟩
    cases p with
    | instr j => exact ht
    | exit => exact mem_liveAtExit.mp ht
  uses i instr hi t ht := (h.before i instr (by simpa using hi) t).mpr (Or.inl ht)
  through i instr hi t ht hd := (h.before i instr (by simpa using hi) t).mpr (Or.inr ⟨hd, ht⟩)

/-- The temporaries that are live along paths solve the equations. -/
theorem paths_equations (c : Code) : c.Equations (fun i => c.LiveBefore (.instr i)) c.LiveAfter := by
  constructor
  · intro i _ t
    refine exists_congr fun p => and_congr_right fun _ => ?_
    cases p with
    | instr j => exact Iff.rfl
    | exit => exact liveBefore_exit
  · intro i instr hi t
    rw [liveBefore_instr]
    simp only [Reads, Writes, hi, Option.some.injEq, exists_eq_left']

/-- A solution holds what is live along a path: the path is followed back from the place that
reads. -/
theorem Equations.of_path {inn out : Nat → Temp → Prop} (h : c.Equations inn out)
    {passed : List Nat} {q : Successor} (hpath : c.Path p passed q)
    (hkeep : ∀ i ∈ passed, ¬ c.Writes t i) (hread : c.Reads t q) : c.before inn p t := by
  induction hpath with
  | here p =>
    cases p with
    | instr i =>
      obtain ⟨instr, hi, hu⟩ := hread
      exact (h.before i instr hi t).mpr (Or.inl hu)
    | exit => exact hread
  | @step i p q passed hp rest ih =>
    obtain ⟨hw, hkeep⟩ := List.forall_mem_cons.mp hkeep
    have hout : out i t := (h.after i hp.lt t).mpr ⟨p, hp, ih hkeep hread⟩
    have hi := List.getElem?_eq_getElem hp.lt
    exact (h.before i _ hi t).mpr (Or.inr ⟨fun hd => hw ⟨_, hi, hd⟩, hout⟩)

theorem isLiveIn_iff : c.isLiveIn i t ↔ c.LiveBefore (.instr i) t := by
  constructor
  · exact (liveness_below c.paths_equations.closed i t).1
  · rintro ⟨passed, q, hpath, hkeep, hread⟩
    exact c.liveness_equations.of_path hpath hkeep hread

theorem isLiveOut_iff : c.isLiveOut i t ↔ c.LiveAfter i t := by
  constructor
  · exact (liveness_below c.paths_equations.closed i t).2
  · rintro ⟨p, hp, passed, q, hpath, hkeep, hread⟩
    exact (c.liveness_equations.after i hp.lt t).mpr
      ⟨p, hp, c.liveness_equations.of_path hpath hkeep hread⟩

end Code

/-! ## One more pass -/

namespace Liveness

variable {f : Flow} {live : Liveness}

/-- A pass over sets that solve the equations leaves them as they are. -/
theorem sweep_of_solved (h : f.Solved live) (changed : Bool) :
    ∀ n, sweep f n changed live = (changed, live)
  | 0 => rfl
  | i + 1 => by
    rw [sweep]
    split
    · exact sweep_of_solved h changed i
    · next instr hi =>
      have hout := (h.out i (Array.getElem?_eq_some_iff.mp hi).1).symm
      have hinn : instr.through (f.out live.liveIn (f.successors.getD i [])) =
          live.liveIn.getD i ∅ := by
        rw [hout]
        exact (h.inn i instr hi).symm
      simp only
      rw [if_pos ⟨hout, hinn⟩]
      exact sweep_of_solved h changed i

theorem refine_of_solved (h : f.Solved live) :
    live.refine f = (false, { live with passes := live.passes + 1 }) := by
  have hsame : live.resized f = { live with passes := live.passes + 1 } := by
    rw [resized, resize_of_size h.liveIn_size, resize_of_size h.liveOut_size]
  rw [refine_eq, hsame]
  have h' : f.Solved { live with passes := live.passes + 1 } :=
    ⟨h.liveIn_size, h.liveOut_size, h.out, h.inn⟩
  exact sweep_of_solved h' false _

end Liveness

/-- Liveness is exact.  Passes that start with empty sets come to an end.  The sets they end with,
one before and one after each instruction, hold a temporary before an instruction exactly when a
path leads from there to a place that reads it and nothing on the way writes it, and after an
instruction exactly when that is so for a place that may follow.  They are the least solution of
the equations of liveness, and one more pass changes nothing and says so. -/
theorem Code.liveness_exact (c : Code) :
    Liveness.Ends c.flow {} c.liveness ∧
    (c.liveness.liveIn.size = c.instrs.length ∧ c.liveness.liveOut.size = c.instrs.length) ∧
    (∀ i t, t ∈ c.liveness.liveIn.getD i ∅ ↔ c.LiveBefore (.instr i) t) ∧
    (∀ i t, t ∈ c.liveness.liveOut.getD i ∅ ↔ ∃ p, c.Follows i p ∧ c.LiveBefore p t) ∧
    c.Equations c.isLiveIn c.isLiveOut ∧
    (∀ inn out, c.Equations inn out → ∀ i t,
      (c.isLiveIn i t → inn i t) ∧ (c.isLiveOut i t → out i t)) ∧
    c.liveness.refine c.flow =
      (false, { c.liveness with passes := c.liveness.passes + 1 }) := by
  have hsolved := c.liveness_solved
  refine ⟨c.liveness_ends, ⟨?_, ?_⟩, fun i t => isLiveIn_iff, fun i t => isLiveOut_iff,
    c.liveness_equations, fun inn out h => liveness_below h.closed,
    Liveness.refine_of_solved hsolved⟩
  · simpa using hsolved.liveIn_size
  · simpa using hsolved.liveOut_size

end MmixBackend
