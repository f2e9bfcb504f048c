import Mathlib.Logic.Relation
import MmixBackend.Proofs.Activations

/-!
# The machine one motion at a time

A step of the machine does a statement together with every second half that follows from it at once.
Here it is taken apart into motions.  A motion makes the call of a statement, or does a statement
that has no call to make, or does one with the result of the call it has made.  A function that ends
is taken off the stack and leaves its result with its caller, whose statement goes on with it in the
next motion.

Main statement: a step is one motion, followed by those of functions that have a result to go on
with until there is none.  So whatever holds between any two motions holds between any two steps.
-/

namespace MmixBackend.Machine

/-! ## Motions -/

/-- A function on the stack: its activation, and the result of the call that its current statement
made, from when the call has returned to when the statement goes on. -/
structure Task where
  activation : Activation
  result : Option Word := none

/-- The machine between two motions. -/
structure Moment where
  world : World
  /-- The functions that run, the innermost first. -/
  stack : List Task

/-- What a motion leads to. -/
inductive Motion where
  | goes (m : Moment)
  | halted (exit : Word) (w : World)
  | faulted (f : Fault)

/-- A function that ends: its result is stored where its caller has SP, and left with the caller. -/
def Moment.leave (w : World) (a : Activation) (v : Word) : List Task → Motion
  | [] => .halted v { w with sp := a.savedSp }
  | c :: cs =>
    .goes ⟨{ w with sp := a.savedSp, memory := w.memory.store a.savedSp v },
      { c with result := some v } :: cs⟩

/-- Goes on after a statement: to the next one, to a label, or out of the function. -/
def Moment.proceed (image : Image) (w : World) (a : Activation) (target : Option Label)
    (rest : List Task) : Motion :=
  match target with
  | none => .goes ⟨w, { activation := { a with position := a.position + 1 } } :: rest⟩
  | some l =>
    if l = a.body.chunk.exit then
      match a.temp a.body.chunk.frame.rv with
      | .error f => .faulted f
      | .ok v => leave w a v rest
    else
      match a.body.targets[l]? with
      | some position => .goes ⟨w, { activation := { a with position } } :: rest⟩
      | none => .faulted (.unknownLabel (image.names.textOf l) a.name)

/-- Makes a call whose arguments are stored.  A function with a body goes on the stack; what the
machine provides leaves its result at once. -/
def Moment.invoke (image : Image) (callDepth : Nat) (w : World) (t : Task) (rest : List Task)
    (callee : Label) : Motion :=
  match image.bodies[callee]? with
  | some body =>
    match enter w body (rest.length + 2) with
    | .error cause => .faulted (.overflow cause)
    | .ok (w, a) =>
      if rest.length + 1 < callDepth then .goes ⟨w, { activation := a } :: t :: rest⟩
      else .faulted (.callDepth callDepth)
  | none =>
    match builtin w (image.names.textOf callee) with
    | .error f => .faulted f
    | .ok (w, v) =>
      .goes ⟨{ w with memory := w.memory.store w.sp v }, { t with result := some v } :: rest⟩

/-- One motion, of the function on top of the stack. -/
def Moment.move (image : Image) (callDepth : Nat) (entry : String) (m : Moment) : Motion :=
  match m.stack with
  | [] => .faulted (.missingEntry entry)
  | t :: rest =>
    match t.activation.current? with
    | none => .faulted (.malformed t.activation.name .fellOff)
    | some stmt =>
      match t.result, Call.inStmt stmt with
      | none, some call =>
        match evalAll image m.world.memory t.activation call.args with
        | .error f => .faulted f
        | .ok vs =>
          match storeArgs m.world.sp m.world.memory call.offsets vs with
          | .error cause => .faulted (.overflow cause)
          | .ok memory => invoke image callDepth { m.world with memory } t rest call.callee
      | result, _ =>
        match exec image m.world t.activation result stmt with
        | .error f => .faulted f
        | .ok (w, a, target) => proceed image w a target rest

/-- From one moment to another in any number of motions. -/
def Moment.Reaches (image : Image) (callDepth : Nat) (entry : String) : Moment → Moment → Prop :=
  Relation.ReflTransGen fun m m' => m.move image callDepth entry = .goes m'

/-! ## What a motion does -/

section Moves

variable {image : Image} {callDepth : Nat} {entry : String} {w w' : World} {a a' : Activation}
  {st : Ir.Stmt} {result : Option Word} {l : Label} {rest : List Task} {m m' : Moment}

theorem exec_some (h : exec image w a result st = .ok (w', a', some l)) : w' = w ∧ a' = a := by
  cases done_of_exec h with
  | jump | branch => exact ⟨rfl, rfl⟩

/-- All that a motion can do with the stack: the function on top goes on, or has a result of what
the machine provides to go on with, or enters another function, or ends. -/
inductive Moment.Moves (image : Image) (callDepth : Nat) : Moment → Moment → Prop where
  | on {w w' : World} {t : Task} {rest : List Task} {temps : Table Temp Word} {position : Nat}
      (hsp : w'.sp = w.sp) :
      Moves image callDepth ⟨w, t :: rest⟩
        ⟨w', { activation := { t.activation with temps, position } } :: rest⟩
  | provided {w w' : World} {a : Activation} {rest : List Task} {v : Word} (hsp : w'.sp = w.sp) :
      Moves image callDepth ⟨w, ⟨a, none⟩ :: rest⟩ ⟨w', ⟨a, some v⟩ :: rest⟩
  | enters {w w' : World} {a b : Activation} {rest : List Task} {m : Memory} {callee : Label}
      {body : Body} (hbody : image.bodies[callee]? = some body)
      (henter : enter { w with memory := m } body (rest.length + 2) = .ok (w', b))
      (hdepth : rest.length + 1 < callDepth) :
      Moves image callDepth ⟨w, ⟨a, none⟩ :: rest⟩ ⟨w', { activation := b } :: ⟨a, none⟩ :: rest⟩
  | returns {w : World} {t c : Task} {cs : List Task} {v : Word}
      (hrv : t.activation.temp t.activation.body.chunk.frame.rv = .ok v) :
      Moves image callDepth ⟨w, t :: c :: cs⟩
        ⟨{ w with sp := t.activation.savedSp, memory := w.memory.store t.activation.savedSp v },
          { c with result := some v } :: cs⟩

theorem Moment.proceed_moves {t : Task} {target : Option Label}
    (hexec : exec image w t.activation result st = .ok (w', a', target))
    (h : proceed image w' a' target rest = .goes m') :
    Moves image callDepth ⟨w, t :: rest⟩ m' := by
  obtain ⟨temps, memory, rfl, rfl⟩ := exec_same hexec
  unfold proceed at h
  cases target with
  | none =>
    cases h
    exact .on rfl
  | some l =>
    simp only at h
    split at h
    · -- the label is the exit, and jumping there changes nothing
      obtain ⟨hworld, hsame⟩ := exec_some hexec
      rw [hworld, hsame] at h
      split at h
      · cases h
      · next v hrv =>
        cases rest with
        | nil => cases h
        | cons c cs =>
          cases h
          exact .returns hrv
    · split at h
      · cases h
        exact .on rfl
      · cases h

theorem Moment.invoke_moves {memory : Memory} {callee : Label}
    (h : invoke image callDepth { w with memory } ⟨a, none⟩ rest callee = .goes m') :
    Moves image callDepth ⟨w, ⟨a, none⟩ :: rest⟩ m' := by
  unfold invoke at h
  split at h
  · next body hbody =>
    split at h
    · cases h
    · next henter =>
      split at h
      · next hdepth =>
        cases h
        exact .enters hbody henter hdepth
      · cases h
  · split at h
    · cases h
    · next hrun =>
      cases h
      have hsp := (builtin_keeps hrun).2
      exact .provided hsp

theorem Moment.moves_of_move (h : m.move image callDepth entry = .goes m') :
    Moves image callDepth m m' := by
  obtain ⟨w, stack⟩ := m
  unfold move at h
  cases stack with
  | nil => cases h
  | cons t rest =>
    obtain ⟨a, result⟩ := t
    simp only at h
    split at h
    · cases h
    · split at h
      · split at h
        · cases h
        · split at h
          · cases h
          · exact invoke_moves h
      · split at h
        · cases h
        · next hexec => exact proceed_moves hexec h

end Moves

/-! ## Steps and motions -/

/-- A function that has no result to go on with. -/
def Task.idle (a : Activation) : Task := { activation := a }

/-- A state of the machine between two steps, as a moment: no function has a result to go on
with. -/
def State.moment (s : State) : Moment := ⟨s.world, (s.top :: s.callers).map Task.idle⟩

def Progress.motion : Progress → Motion
  | .running s => .goes s.moment
  | .halted exit w => .halted exit w
  | .faulted f => .faulted f

/-- Functions with a result to go on with do so, until there is none on top of the stack. -/
inductive Motion.Settles (image : Image) (callDepth : Nat) (entry : String) :
    Motion → Motion → Prop where
  | done (p : Motion) : Settles image callDepth entry p p
  | resume {w : World} {a : Activation} {v : Word} {rest : List Task} {p : Motion}
      (h : Settles image callDepth entry
        (Moment.move image callDepth entry ⟨w, ⟨a, some v⟩ :: rest⟩) p) :
      Settles image callDepth entry (.goes ⟨w, ⟨a, some v⟩ :: rest⟩) p

section Steps

variable {image : Image} {callDepth : Nat} {entry : String}

/-- A statement is settled as a whole by motions one after another. -/
theorem settle_settles {callers : List Activation} :
    ∀ (notes : List Note) (w : World) (a : Activation) (target : Option Label),
      (Moment.proceed image w a target (callers.map Task.idle)).Settles image callDepth entry
        (settle image notes w a target callers).2.motion := by
  induction callers with
  | nil =>
    intro notes w a target
    unfold settle Moment.proceed
    cases target with
    | none => exact .done _
    | some l =>
      simp only
      split
      · cases a.temp a.body.chunk.frame.rv with
        | error f => exact .done _
        | ok v => exact .done _
      · cases a.body.targets[l]? with
        | none => exact .done _
        | some j => exact .done _
  | cons c cs ih =>
    intro notes w a target
    unfold settle Moment.proceed
    cases target with
    | none => exact .done _
    | some l =>
      simp only
      split
      · cases a.temp a.body.chunk.frame.rv with
        | error f => exact .done _
        | ok v =>
          -- the caller has the result and goes on with it
          refine .resume ?_
          simp only [Moment.move, Task.idle]
          cases c.current? with
          | none => exact .done _
          | some st =>
            simp only
            cases exec image
                { w with sp := a.savedSp, memory := w.memory.store a.savedSp v }
                c (some v) st with
            | error f => exact .done _
            | ok r => exact ih _ _ _ _
      · cases a.body.targets[l]? with
        | none => exact .done _
        | some j => exact .done _

/-- A call is made by one motion, and what follows at once settles. -/
theorem invoke_settles {s : State} {st : Ir.Stmt} {call : Call} {m : Memory}
    (hlevel : s.top.level = s.callers.length + 1) (hcur : s.top.current? = some st) :
    (Moment.invoke image callDepth { s.world with memory := m } (Task.idle s.top)
        (s.callers.map Task.idle) call.callee).Settles image callDepth entry
      (invoke image callDepth s st call m).2.motion := by
  unfold invoke Moment.invoke
  rw [List.length_map, hlevel]
  cases image.bodies[call.callee]? with
  | some body =>
    simp only
    cases enter { s.world with memory := m } body (s.callers.length + 2) with
    | error cause => exact .done _
    | ok r =>
      simp only
      split
      · exact .done _
      · exact .done _
  | none =>
    simp only
    cases builtin { s.world with memory := m } (image.names.textOf call.callee) with
    | error f => exact .done _
    | ok r =>
      refine .resume ?_
      simp only [Moment.move, Task.idle, hcur]
      cases exec image { r.1 with memory := r.1.memory.store r.1.sp r.2 } s.top (some r.2)
          st with
      | error f => exact .done _
      | ok r => exact settle_settles _ _ _ _

/-- A step is a motion, followed by those of functions that have a result to go on with. -/
theorem advance_settles {s : State} (hlevel : s.top.level = s.callers.length + 1) :
    (s.moment.move image callDepth entry).Settles image callDepth entry
      (advance image callDepth s).motion := by
  simp only [advance, Moment.move, State.moment, List.map_cons, Task.idle]
  cases hcur : s.top.current? with
  | none => exact .done _
  | some st =>
    simp only [step]
    cases Call.inStmt st with
    | some call =>
      simp only
      cases evalAll image s.world.memory s.top call.args with
      | error f => exact .done _
      | ok vs =>
        simp only
        cases storeArgs s.world.sp s.world.memory call.offsets vs with
        | error cause => exact .done _
        | ok m => exact invoke_settles hlevel hcur
    | none =>
      simp only
      cases exec image s.world s.top none st with
      | error f => exact .done _
      | ok r => exact settle_settles _ _ _ _

theorem Motion.Settles.reaches {p q : Motion} (h : p.Settles image callDepth entry q)
    {m₀ m : Moment} (hp : m₀.move image callDepth entry = p) (hq : q = .goes m) :
    m₀.Reaches image callDepth entry m := by
  induction h generalizing m₀ with
  | done p => exact .single (hp.trans hq)
  | resume _ ih => exact .head hp (ih rfl hq)

end Steps

end MmixBackend.Machine
