import MmixBackend.Machine.Run

/-!
# Runs as iterated steps

A run of the machine is its step function iterated: `after n p` is where `n` steps lead from
`p`, and a machine that halted or faulted stays as it is.  The loop that counts steps and keeps
notes gives what `after` gives, whatever it notes; so everything about runs is proved about
`after`.
-/

namespace MmixBackend.Machine

/-! ## Steps -/

/-- Where the current statement leads. -/
def advance (image : Image) (callDepth : Nat) (s : State) : Progress :=
  match s.top.current? with
  | none => .faulted (.malformed s.top.name .fellOff)
  | some stmt => (step image callDepth s stmt).2

/-- Where so many steps lead. -/
def after (image : Image) (callDepth : Nat) : Nat → Progress → Progress
  | 0, p => p
  | n + 1, .running s => after image callDepth n (advance image callDepth s)
  | _ + 1, .halted exit w => .halted exit w
  | _ + 1, .faulted f => .faulted f

variable {p : Progress} {n : Nat}

section After

variable {image : Image} {callDepth : Nat}

@[simp] theorem after_zero (p : Progress) : after image callDepth 0 p = p := by
  cases p <;> rfl

theorem after_succ (n : Nat) (s : State) :
    after image callDepth (n + 1) (.running s) =
      after image callDepth n (advance image callDepth s) := rfl

@[simp] theorem after_halted (n : Nat) (exit : Word) (w : World) :
    after image callDepth n (.halted exit w) = .halted exit w := by
  cases n <;> rfl

@[simp] theorem after_faulted (n : Nat) (f : Fault) :
    after image callDepth n (.faulted f) = .faulted f := by
  cases n <;> rfl

theorem after_add (m n : Nat) (p : Progress) :
    after image callDepth (m + n) p = after image callDepth n (after image callDepth m p) := by
  induction m generalizing p with
  | zero => simp
  | succ m ih =>
    rw [Nat.succ_add]
    cases p with
    | running s => exact ih _
    | halted exit w => simp
    | faulted f => simp

theorem running_of_le {m n : Nat} (h : m ≤ n) {s : State}
    (hs : after image callDepth n p = .running s) :
    ∃ s', after image callDepth m p = .running s' := by
  obtain ⟨k, rfl⟩ := Nat.exists_eq_add_of_le h
  rw [after_add] at hs
  cases hm : after image callDepth m p with
  | running s' => exact ⟨s', rfl⟩
  | halted exit w =>
    rw [hm, after_halted] at hs
    cases hs
  | faulted f =>
    rw [hm, after_faulted] at hs
    cases hs

theorem exists_of_after_succ {s s' : State}
    (h : after image callDepth (n + 1) (.running s) = .running s') :
    ∃ s₁, advance image callDepth s = .running s₁ ∧
      after image callDepth n (.running s₁) = .running s' := by
  obtain ⟨s₁, hs₁⟩ : ∃ s₁, advance image callDepth s = .running s₁ :=
    running_of_le (Nat.le_add_left 1 n) h
  exact ⟨s₁, hs₁, by rwa [after_succ, hs₁] at h⟩

theorem after_ended (h : ∀ s, p ≠ .running s) :
    after image callDepth n p = p := by
  cases p with
  | running s => exact absurd rfl (h s)
  | halted exit w => exact after_halted n exit w
  | faulted f => exact after_faulted n f

theorem faulted_of_le {m n : Nat} (h : m ≤ n) {f : Fault}
    (hs : after image callDepth m p = .faulted f) :
    after image callDepth n p = .faulted f := by
  obtain ⟨k, rfl⟩ := Nat.exists_eq_add_of_le h
  rw [after_add, hs, after_faulted]

/-- A run comes to one end only. -/
theorem after_unique {m k : Nat} {p q q' : Progress} (h : after image callDepth m p = q)
    (h' : after image callDepth k p = q') (hq : ∀ s, q ≠ .running s)
    (hq' : ∀ s, q' ≠ .running s) : q = q' :=
  calc q = after image callDepth k q := (after_ended hq).symm
    _ = after image callDepth (m + k) p := by rw [after_add, h]
    _ = after image callDepth m q' := by rw [Nat.add_comm, after_add, h']
    _ = q' := after_ended hq'

end After

/-! ## The limit on calls -/

/-- A greater limit on calls changes a step only where the smaller one stops it, and then both have
entered the function that is one too many. -/
theorem step_of_le {image : Image} {d d' : Nat} (h : d ≤ d') (s : State) (stmt : Ir.Stmt) :
    step image d' s stmt = step image d s stmt ∨
      (step image d s stmt).2 = .faulted (.callDepth d) ∧
        (step image d' s stmt).1 = (step image d s stmt).1 := by
  simp only [step]
  cases Call.inStmt stmt with
  | none => exact Or.inl rfl
  | some call =>
    simp only
    cases evalAll image s.world.memory s.top call.args with
    | error f => exact Or.inl rfl
    | ok vs =>
      simp only
      cases storeArgs s.world.sp s.world.memory call.offsets vs with
      | error cause => exact Or.inl rfl
      | ok m =>
        simp only [invoke]
        cases image.bodies[call.callee]? with
        | none => exact Or.inl rfl
        | some body =>
          simp only
          cases enter { s.world with memory := m } body (s.top.level + 1) with
          | error cause => exact Or.inl rfl
          | ok r =>
            simp only
            by_cases hd : s.top.level < d
            · rw [if_pos hd, if_pos (Nat.lt_of_lt_of_le hd h)]
              exact Or.inl rfl
            · rw [if_neg hd]
              refine Or.inr ⟨rfl, ?_⟩
              split <;> rfl

theorem advance_of_le {image : Image} {d d' : Nat} (h : d ≤ d') (s : State) :
    advance image d' s = advance image d s ∨ advance image d s = .faulted (.callDepth d) := by
  unfold advance
  cases s.top.current? with
  | none => exact Or.inl rfl
  | some stmt => exact (step_of_le h s stmt).imp (congrArg Prod.snd) And.left

theorem halted_of_callDepth_le {image : Image} {d d' : Nat} (h : d ≤ d') {exit : Word} {w : World} :
    ∀ {p : Progress}, after image d n p = .halted exit w → after image d' n p = .halted exit w := by
  induction n with
  | zero =>
    intro p hp
    rwa [after_zero] at hp ⊢
  | succ n ih =>
    intro p hp
    cases p with
    | running s =>
      rw [after_succ] at hp ⊢
      rcases advance_of_le h s with heq | hfault
      · rw [heq]
        exact ih hp
      · rw [hfault, after_faulted] at hp
        cases hp
    | halted exit' w' => simpa using hp
    | faulted f => simp at hp

/-! ## Functions that wait -/

/-- A function that has returned: the run ends, or the statement of the caller resumes. -/
def returned (image : Image) (v : Word) (w : World) (fp : Word) : List Activation → Progress
  | [] => .halted v { w with sp := fp }
  | c :: cs =>
    match c.current? with
    | none => .faulted (.malformed c.name .fellOff)
    | some st =>
      match exec image { w with sp := fp, memory := w.memory.store fp v } c (some v) st with
      | .error f => .faulted f
      | .ok (w, c, target) => (settle image [] w c target cs).2

/-- What a run leads to if these functions wait below it. -/
def Progress.over (image : Image) (base : List Activation) : Progress → Progress
  | .running s => .running { s with callers := s.callers ++ base }
  | .halted v w => returned image v w w.sp base
  | .faulted f => .faulted f

section Over

variable {image : Image}

/-- A function goes on by itself, and when it ends those that wait go on; notes do not matter. -/
theorem settle_eq (callers : List Activation) :
    ∀ (notes : List Note) (w : World) (a : Activation) (target : Option Label),
      (settle image notes w a target callers).2 =
        (settle image [] w a target []).2.over image callers := by
  induction callers with
  | nil =>
    intro notes w a target
    cases target with
    | none => rfl
    | some l =>
      unfold settle
      split
      · cases a.temp a.body.chunk.frame.rv <;> rfl
      · cases a.body.targets[l]? <;> rfl
  | cons c cs ih =>
    intro notes w a target
    cases target with
    | none => rfl
    | some l =>
      unfold settle
      split
      · cases a.temp a.body.chunk.frame.rv with
        | error f => rfl
        | ok v =>
          simp only [Progress.over, returned]
          cases c.current? with
          | none => rfl
          | some st =>
            simp only
            generalize exec _ _ _ _ _ = r
            cases r with
            | error f => rfl
            | ok r => exact (ih ..).trans (ih ..).symm
      · cases a.body.targets[l]? <;> rfl

theorem settle_notes (callers : List Activation) (notes notes' : List Note) (w : World)
    (a : Activation) (target : Option Label) :
    (settle image notes w a target callers).2 = (settle image notes' w a target callers).2 :=
  (settle_eq ..).trans (settle_eq ..).symm

/-- The functions that wait go on one after another. -/
theorem returned_cons (v : Word) (w : World) (fp : Word) (c : Activation) (cs : List Activation) :
    returned image v w fp (c :: cs) = (returned image v w fp [c]).over image cs := by
  simp only [returned]
  cases c.current? with
  | none => rfl
  | some st =>
    simp only
    generalize exec _ _ _ _ _ = r
    cases r with
    | error f => rfl
    | ok r => exact settle_eq ..

theorem over_append (base : List Activation) {cs : List Activation} :
    ∀ p : Progress, p.over image (cs ++ base) = (p.over image cs).over image base := by
  induction cs with
  | nil => rintro (s | ⟨v, w⟩ | f) <;> simp [Progress.over, returned]
  | cons c cs ih =>
    rintro (s | ⟨v, w⟩ | f)
    · simp [Progress.over]
    · show returned image v w w.sp (c :: (cs ++ base)) = (returned image v w w.sp (c :: cs)).over ..
      rw [returned_cons, ih, ← returned_cons]
    · rfl

theorem settle_over {callers base : List Activation} (notes : List Note) (w : World)
    (a : Activation) (target : Option Label) :
    (settle image notes w a target (callers ++ base)).2 =
      (settle image notes w a target callers).2.over image base := by
  rw [settle_eq, over_append, ← settle_eq]

end Over

/-! ## The loop -/

/-- What a run that may go no further ends with. -/
def conclude (stepLimit : Nat) : Progress → Except Fault Outcome
  | .running s =>
    match s.top.current? with
    | none => .error (.malformed s.top.name .fellOff)
    | some _ => .error (.stepLimit stepLimit)
  | .halted exit w => .ok { exit, output := w.output.reverse }
  | .faulted f => .error f

theorem loop_eq (image : Image) (settings : Settings) :
    ∀ (n : Nat) (notes : List Note) (s : State),
      (loop image settings n notes s).2.map (·.2) =
        conclude settings.stepLimit (after image settings.callDepth n (.running s)) := by
  intro n
  induction n with
  | zero =>
    intro notes s
    unfold loop
    cases h : s.top.current? with
    | none | some stmt => simp [conclude, h, Except.map]
  | succ n ih =>
    intro notes s
    rw [after_succ, advance]
    unfold loop
    cases h : s.top.current? with
    | none => simp [conclude, Except.map]
    | some stmt =>
      simp only
      cases (step image settings.callDepth s stmt).2 with
      | running s' => exact ih _ s'
      | halted exit w | faulted f => simp [conclude, Except.map]

/-- The state in which a run starts. -/
def initial (names : Names) (chunks : Chunks) (entry : String) (input : List UInt8) :
    Except Fault (Image × State) := do
  let (image, m) ← exactly (load names chunks)
  let body ← entryBody image entry
  let (world, top) ← exactly (enter
    { memory := m.store stackStart 0, sp := stackStart, hp := heapStart, input, output := [] }
    body 1)
  return (image, { world, top, callers := [] })

/-- A run is the iterated step from its first state. -/
theorem run_eq (settings : Settings) (names : Names) (chunks : Chunks) (entry : String)
    (input : List UInt8) :
    run settings names chunks entry input =
      initial names chunks entry input >>= fun start =>
        conclude settings.stepLimit
          (after start.1 settings.callDepth settings.stepLimit (.running start.2)) := by
  unfold run runFrom initial
  cases hl : exactly (load names chunks) with
  | error f => rfl
  | ok loaded =>
    obtain ⟨image, m⟩ := loaded
    simp only [bind, Except.bind]
    cases hb : entryBody image entry with
    | error f => rfl
    | ok body =>
      simp only
      split
      · next heq =>
        split at heq
        · cases heq
          rfl
        · cases heq
      · next heq =>
        split at heq
        · cases heq
        · cases heq
          split
          · next h =>
            exact (congrArg (fun r => r.2.map (·.2)) h).symm.trans (loop_eq _ _ _ _ _)
          · next h =>
            exact (congrArg (fun r => r.2.map (·.2)) h).symm.trans (loop_eq _ _ _ _ _)

theorem conclude_ok {o : Outcome} :
    conclude n p = .ok o ↔ ∃ exit w, p = .halted exit w ∧ o = ⟨exit, w.output.reverse⟩ := by
  cases p with
  | running s =>
    simp only [conclude]
    cases s.top.current? <;> simp
  | halted exit w =>
    constructor
    · intro h
      cases h
      exact ⟨exit, w, rfl, rfl⟩
    · rintro ⟨_, _, heq, rfl⟩
      cases heq
      rfl
  | faulted f => simp [conclude]

/-- Limits decide whether a run comes to a result, not to which. -/
theorem run_ok_unique {settings settings' : Settings} {names : Names} {chunks : Chunks}
    {entry : String} {input : List UInt8} {o o' : Outcome}
    (h : run settings names chunks entry input = .ok o)
    (h' : run settings' names chunks entry input = .ok o') : o' = o := by
  rw [run_eq] at h h'
  cases hinit : initial names chunks entry input with
  | error f =>
    rw [hinit] at h
    cases h
  | ok start =>
    rw [hinit] at h h'
    obtain ⟨exit, w, hafter, rfl⟩ := conclude_ok.mp h
    obtain ⟨exit', w', hafter', rfl⟩ := conclude_ok.mp h'
    have hmax := halted_of_callDepth_le
      (Nat.le_max_left settings.callDepth settings'.callDepth) hafter
    have hmax' := halted_of_callDepth_le
      (Nat.le_max_right settings.callDepth settings'.callDepth) hafter'
    cases after_unique hmax hmax' (by simp) (by simp)
    rfl

end MmixBackend.Machine
