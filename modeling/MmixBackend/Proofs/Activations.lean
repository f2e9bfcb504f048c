import MmixBackend.Proofs.Faults
import MmixBackend.Proofs.Realization

/-!
# One function at a time

The functions that wait for a call do not matter to the ones above them, until the lowest of those
returns.  So a call can be taken as a whole: it is the run of a function with no one waiting, from
where it is entered to where it halts.  The run of a function is then a sequence of statements, each
done by itself or with the call it makes done at once.
-/

namespace MmixBackend.Machine

open Ir

/-! ## Functions that wait -/

section Over

variable {image : Image} {callDepth : Nat} {base : List Activation}

/-- A step does not depend on the functions that wait. -/
theorem advance_over (s : State) :
    advance image callDepth { s with callers := s.callers ++ base } =
      (advance image callDepth s).over image base := by
  unfold advance
  cases s.top.current? with
  | none => rfl
  | some st =>
    simp only [step]
    cases Call.inStmt st with
    | none =>
      simp only
      cases exec image s.world s.top none st with
      | error f => rfl
      | ok r => exact settle_over _ _ _ _
    | some call =>
      simp only
      cases evalAll image s.world.memory s.top call.args with
      | error f => rfl
      | ok vs =>
        simp only
        cases storeArgs s.world.sp s.world.memory call.offsets vs with
        | error cause => rfl
        | ok m =>
          simp only [invoke]
          cases image.bodies[call.callee]? with
          | some body =>
            simp only
            cases enter { s.world with memory := m } body (s.top.level + 1) with
            | error cause => rfl
            | ok r =>
              simp only
              split
              · rfl
              · rfl
          | none =>
            simp only
            cases builtin { s.world with memory := m }
                (image.names.textOf call.callee) with
            | error f => rfl
            | ok r =>
              simp only
              generalize exec _ _ _ _ _ = r
              cases r with
              | error f => rfl
              | ok r => exact settle_over _ _ _ _

theorem after_over (base : List Activation) {n : Nat} :
    ∀ {s s' : State}, after image callDepth n (.running s) = .running s' →
      after image callDepth n (.running { s with callers := s.callers ++ base }) =
        .running { s' with callers := s'.callers ++ base } := by
  induction n with
  | zero =>
    intro s s' h
    cases h
    rfl
  | succ n ih =>
    intro s s' h
    obtain ⟨s₁, hs, h⟩ := exists_of_after_succ h
    rw [after_succ, advance_over, hs]
    exact ih h

/-- Where a run above waiting functions ends, these go on. -/
theorem after_over_last (base : List Activation) {k : Nat} {s s' : State} {p : Progress}
    (hk : after image callDepth k (.running s) = .running s')
    (hlast : advance image callDepth s' = p) :
    after image callDepth (k + 1) (.running { s with callers := s.callers ++ base }) =
      p.over image base := by
  rw [after_add, after_over base hk, after_succ, after_zero, advance_over, hlast]

end Over

/-! ## Calls as a whole -/

/-- What a call does to the world, with its arguments stored and its result left at SP: it runs what
the machine provides, or a function from where it is entered to where it halts. -/
inductive Called (image : Image) (callDepth level : Nat) : Label → World → World → Prop
  | provided {f : Label} {w w' : World} {v : Word} (hnone : image.bodies[f]? = none)
      (hrun : builtin w (image.names.textOf f) = .ok (w', v)) :
      Called image callDepth level f w { w' with memory := w'.memory.store w'.sp v }
  | body {f : Label} {b : Body} {w w₁ w' : World} {a : Activation} {n : Nat} {v : Word}
      (hbody : image.bodies[f]? = some b) (hlevel : level < callDepth)
      (henter : enter w b (level + 1) = .ok (w₁, a))
      (hrun : after image callDepth n (.running ⟨w₁, a, []⟩) = .halted v w') :
      Called image callDepth level f w { w' with memory := w'.memory.store w'.sp v }

/-- A statement done as a whole, with the call it makes, if any, and the world it makes it in. -/
inductive Performs (image : Image) (calls : Label → World → World → Prop) (w : World)
    (a : Activation) (st : Stmt) : List (Label × World) → World × Activation × Option Label → Prop
  | plain {r : World × Activation × Option Label} (hcall : Call.inStmt st = none)
      (hexec : exec image w a none st = .ok r) : Performs image calls w a st [] r
  | call {call : Call} {vs : List Word} {m : Memory} {w' : World}
      {r : World × Activation × Option Label} (hcall : Call.inStmt st = some call)
      (hargs : evalAll image w.memory a call.args = .ok vs)
      (hstore : storeArgs w.sp w.memory call.offsets vs = .ok m)
      (hcalls : calls call.callee { w with memory := m } w')
      (hexec : exec image w' a (some (w'.memory.load w'.sp)) st = .ok r) :
      Performs image calls w a st [(call.callee, { w with memory := m })] r

/-- The call that is made at a state, if no function waits, and the world it is made in. -/
def State.calls (image : Image) (s : State) : List (Label × World) :=
  match s.callers, s.top.current?.bind Call.inStmt with
  | [], some call =>
    match evalAll image s.world.memory s.top call.args with
    | .error _ => []
    | .ok vs =>
      match storeArgs s.world.sp s.world.memory call.offsets vs with
      | .error _ => []
      | .ok m => [(call.callee, { s.world with memory := m })]
  | _, _ => []

/-- The calls that the lowest function makes in so many steps. -/
def callsOf (image : Image) (callDepth : Nat) : Nat → Progress → List (Label × World)
  | n + 1, .running s => s.calls image ++ callsOf image callDepth n (advance image callDepth s)
  | _, _ => []

section Calls

variable {image : Image} {callDepth : Nat}

theorem callsOf_succ (n : Nat) (s : State) :
    callsOf image callDepth (n + 1) (.running s) =
      s.calls image ++ callsOf image callDepth n (advance image callDepth s) := rfl

theorem callsOf_add (m n : Nat) :
    ∀ p : Progress, callsOf image callDepth (m + n) p =
      callsOf image callDepth m p ++ callsOf image callDepth n (after image callDepth m p) := by
  induction m with
  | zero =>
    intro p
    rw [Nat.zero_add, after_zero]
    cases p <;> rfl
  | succ m ih =>
    intro p
    cases p with
    | running s =>
      rw [Nat.succ_add, callsOf_succ, callsOf_succ, ih, List.append_assoc, after_succ]
    | halted | faulted => cases n <;> simp [callsOf]

/-- While a function waits, the calls are not the lowest function's. -/
theorem callsOf_over {a : Activation} {n : Nat} :
    ∀ {s s' : State}, after image callDepth n (.running s) = .running s' →
      callsOf image callDepth (n + 1) (.running { s with callers := s.callers ++ [a] }) = [] := by
  have hwaits : ∀ s : State, ({ s with callers := s.callers ++ [a] } : State).calls image = [] := by
    intro s
    unfold State.calls
    split
    · next h _ => exact absurd h (by simp)
    · rfl
  induction n with
  | zero =>
    intro s s' h
    rw [callsOf_succ, hwaits]
    cases advance image callDepth { s with callers := s.callers ++ [a] } <;> rfl
  | succ n ih =>
    intro s s' h
    obtain ⟨s₁, hs, h⟩ := exists_of_after_succ h
    rw [callsOf_succ, hwaits, advance_over, hs]
    exact ih h

theorem load_store_self (m : Memory) (a v : Word) : (m.store a v).load a = v := by
  rw [Memory.load_store, if_pos rfl]

/-- A run of one function starts with its current statement, done as a whole, unless it fails or
stops within the call that the statement makes. -/
theorem exists_performs {w : World} {a : Activation} {n : Nat} {p : Progress}
    (h : after image callDepth (n + 1) (.running ⟨w, a, []⟩) = p)
    (hback : ∀ s, p = .running s → s.callers = []) (hok : ∀ f, p ≠ .faulted f) :
    ∃ st events r, a.current? = some st ∧
      Performs image (Called image callDepth a.level) w a st events r ∧
      ∃ k ≤ n, after image callDepth (k + 1) (.running ⟨w, a, []⟩) =
          (settle image [] r.1 r.2.1 r.2.2 []).2 ∧
        callsOf image callDepth (k + 1) (.running ⟨w, a, []⟩) = events := by
  have hcases := advances image callDepth ⟨w, a, []⟩
  generalize hadv : advance image callDepth ⟨w, a, []⟩ = q at hcases
  cases hcases with
  | faulted =>
    rw [after_succ, hadv, after_faulted] at h
    exact absurd h.symm (hok _)
  | @plain st w' a' target hst hcall hexec =>
    refine ⟨st, [], _, hst, .plain hcall hexec, 0, n.zero_le, hadv, ?_⟩
    simp [callsOf, State.calls, hst, hcall]
  | @provided st call vs m w₁ w' v a' target hst hcall hargs hstore hnone hrun hexec =>
    refine ⟨st, _, (w', a', target), hst, .call hcall hargs hstore (.provided hnone hrun) ?_, 0,
      n.zero_le, hadv, ?_⟩
    · simpa only [load_store_self] using hexec
    · simp [callsOf, State.calls, hst, hcall, hargs, hstore]
  | @entered st call vs m b w₁ callee hst hcall hargs hstore hbody hlevel henter =>
    -- the function that is entered has to return within the remaining steps
    have hcalls : State.calls image ⟨w, a, []⟩ = [(call.callee, { w with memory := m })] := by
      simp [State.calls, hst, hcall, hargs, hstore]
    rw [after_succ, hadv] at h
    have hsteps : ∀ {k : Nat} {s' : State} {q : Progress},
        after image callDepth k (.running ⟨w₁, callee, []⟩) = .running s' →
        advance image callDepth s' = q →
        after image callDepth (k + 1) (.running ⟨w₁, callee, [a]⟩) = q.over image [a] :=
      fun hk hlast => after_over_last [a] hk hlast
    cases hcallee : after image callDepth n (.running ⟨w₁, callee, []⟩) with
    | running s' =>
      have hover := after_over [a] hcallee
      rw [show (State.mk w₁ callee ([] ++ [a])) = ⟨w₁, callee, [a]⟩ from rfl, h] at hover
      exact absurd (hback _ hover) (by simp)
    | faulted f =>
      obtain ⟨k, s', hk, hrun, hlast⟩ := exists_last_advance (fun _ h => by cases h) hcallee
      have hend := faulted_of_le (Nat.succ_le_of_lt hk) (hsteps hrun hlast)
      exact absurd (h.symm.trans hend) (hok f)
    | halted v w' =>
      obtain ⟨k, s', hk, hrun, hlast⟩ := exists_last_advance (fun _ h => by cases h) hcallee
      have hend := hsteps hrun hlast
      simp only [Progress.over, returned, hst] at hend
      cases hexec : exec image { w' with memory := w'.memory.store w'.sp v } a (some v) st with
      | error f =>
        rw [hexec] at hend
        exact absurd (h.symm.trans (faulted_of_le (Nat.succ_le_of_lt hk) hend)) (hok f)
      | ok r =>
        rw [hexec] at hend
        refine ⟨st, _, r, hst, .call hcall hargs hstore (.body hbody hlevel henter hcallee) ?_,
          k + 1, hk, ?_, ?_⟩
        · simpa only [load_store_self] using hexec
        · rw [after_succ, hadv, hend]
        · rw [callsOf_succ, hcalls, hadv]
          exact congrArg _ (callsOf_over (a := a) hrun)

end Calls

/-! ## How a function goes on -/

section Alone

variable {image : Image} {w w' : World} {a a' : Activation}

theorem Performs.same {calls : Label → World → World → Prop} {st : Stmt}
    {events : List (Label × World)} {target : Option Label}
    (h : Performs image calls w a st events (w', a', target)) : ∃ ts, a' = { a with temps := ts } := by
  cases h with
  | plain _ hexec | call _ _ _ _ hexec =>
    obtain ⟨ts, _, rfl, -⟩ := exec_same hexec
    exact ⟨ts, rfl⟩

theorem settle_running {notes : List Note} {target : Option Label} {s : State}
    (h : (settle image notes w a target []).2 = .running s) :
    ∃ j, s = ⟨w, { a with position := j }, []⟩ ∧
      (target = none ∧ j = a.position + 1 ∨
        ∃ l, target = some l ∧ l ≠ a.body.chunk.exit ∧ a.body.targets[l]? = some j) := by
  have hall : Ensues image w a target [] _ := settle_ensues [] notes w a target
  rw [h] at hall
  cases hall with
  | goes hj => exact ⟨_, rfl, hj⟩

theorem settle_halted {notes : List Note} {target : Option Label} {v : Word}
    (h : (settle image notes w a target []).2 = .halted v w') :
    target = some a.body.chunk.exit ∧ a.temp a.body.chunk.frame.rv = .ok v ∧
      w' = { w with sp := a.savedSp } := by
  have hall : Ensues image w a target [] _ := settle_ensues [] notes w a target
  rw [h] at hall
  cases hall with
  | halted hv => exact ⟨rfl, hv, rfl⟩

end Alone

end MmixBackend.Machine
