import MmixBackend.Proofs.Activations

/-!
# What a run does

A run stores words and makes calls, and that is all that can be told about it from outside before it
ends.  A step does what the running function does by itself and, when that ends it, what each function
that waits does with the result.

Two states have the same runs when what one run does is done in the same order by the other, and they
come to the same end or neither ends.  Main statement: it is enough that each step of the first run is
matched by one or more steps of the second that do the same.
-/

namespace MmixBackend.Machine

open Ir

/-! ## Events -/

/-- Something that a run does: a word is stored, or a call is made. -/
inductive Event where
  | store (addr v : Word)
  | call (callee : Label) (w : World)

/-- Memory after an event. -/
def Event.on (m : Memory) : Event → Memory
  | .store addr v => m.store addr v
  | .call .. => m

/-- What a statement that has no call to make stores. -/
def stores (image : Image) (m : Memory) (a : Activation) (result : Option Word) : Stmt → List Event
  | .move (.mem e) src =>
    match eval image m a result src, eval image m a result e with
    | .ok v, .ok addr => [.store addr v]
    | _, _ => []
  | _ => []

/-- Where a statement that has no call to make leads a function that no one waits for. -/
def lead (image : Image) (w : World) (a : Activation) (result : Option Word) (st : Stmt) : Progress :=
  match exec image w a result st with
  | .error f => .faulted f
  | .ok (w, a, target) => (settle image [] w a target []).2

/-- What a function does when its call has returned: the result is left at SP, and the statement goes
on with it. -/
def takes (image : Image) (v : Word) (w : World) (a : Activation) : List Event :=
  match a.current? with
  | none => []
  | some st => .store w.sp v :: stores image (w.memory.store w.sp v) a (some v) st

/-- What the running function does by itself. -/
def does (image : Image) (w : World) (a : Activation) : List Event :=
  match a.current? with
  | none => []
  | some st =>
    match Call.inStmt st with
    | none => stores image w.memory a none st
    | some call =>
      match evalAll image w.memory a call.args with
      | .error _ => []
      | .ok vs =>
        match storeArgs w.sp w.memory call.offsets vs with
        | .error _ => []
        | .ok m =>
          List.zipWith (fun offset v => .store (w.sp + offset) v) call.offsets vs ++
            .call call.callee { w with memory := m } ::
              match image.bodies[call.callee]? with
              | some _ => []
              | none =>
                match builtin { w with memory := m } (image.names.textOf call.callee) with
                | .error _ => []
                | .ok (w, v) => takes image v w a

/-- What functions that wait do when the ones above them have come somewhere. -/
def resumes (image : Image) : List Activation → Progress → List Event
  | c :: cs, .halted v w => takes image v w c ++ resumes image cs (returned image v w w.sp [c])
  | _, _ => []

/-- What a step does. -/
def State.events (image : Image) (callDepth : Nat) (s : State) : List Event :=
  does image s.world s.top ++
    resumes image s.callers (advance image callDepth ⟨s.world, s.top, []⟩)

section

variable {image : Image} {callDepth : Nat}

theorem advance_eq_lead {w : World} {a : Activation} {st : Stmt} (hst : a.current? = some st)
    (hcall : Call.inStmt st = none) :
    advance image callDepth ⟨w, a, []⟩ = lead image w a none st := by
  simp only [advance, hst, step, hcall, lead]
  cases exec image w a none st <;> rfl

theorem returned_eq_lead {a : Activation} {st : Stmt} (hst : a.current? = some st) (v : Word)
    (w : World) : returned image v w w.sp [a] =
      lead image { w with memory := w.memory.store w.sp v } a (some v) st := by
  cases hexec : exec image { w with memory := w.memory.store w.sp v } a (some v) st <;>
    simp only [returned, lead, hst, hexec]

@[simp] theorem resumes_running (cs : List Activation) (s : State) :
    resumes image cs (.running s) = [] := by
  cases cs <;> rfl

@[simp] theorem resumes_faulted (cs : List Activation) (f : Fault) :
    resumes image cs (.faulted f) = [] := by
  cases cs <;> rfl

/-- A function that the machine provides returns at once. -/
theorem invoke_provided {s : State} {st : Stmt} {call : Call} {m : Memory} {w : World} {v : Word}
    (hst : s.top.current? = some st) (hnone : image.bodies[call.callee]? = none)
    (hrun : builtin { s.world with memory := m } (image.names.textOf call.callee) = .ok (w, v)) :
    (invoke image callDepth s st call m).2 = returned image v w w.sp (s.top :: s.callers) := by
  simp only [invoke, hnone, hrun, returned, hst]
  generalize exec _ _ _ _ _ = r
  cases r with
  | error f => rfl
  | ok r => exact settle_notes ..

/-- A step is the step of the running function, and what follows from it at once. -/
theorem advance_eq_over (s : State) : advance image callDepth s =
    (advance image callDepth ⟨s.world, s.top, []⟩).over image s.callers :=
  advance_over ⟨s.world, s.top, []⟩

theorem resumes_append (base : List Activation) {cs : List Activation} :
    ∀ p : Progress, resumes image (cs ++ base) p =
      resumes image cs p ++ resumes image base (p.over image cs) := by
  induction cs with
  | nil => rintro (s | ⟨v, w⟩ | f) <;> simp [Progress.over, resumes, returned]
  | cons c cs ih =>
    rintro (s | ⟨v, w⟩ | f)
    · simp [Progress.over]
    · rw [List.cons_append, resumes, resumes, ih, List.append_assoc, ← returned_cons]
      rfl
    · simp [Progress.over]

theorem State.events_alone (w : World) (a : Activation) :
    (⟨w, a, []⟩ : State).events image callDepth = does image w a := by
  simp [State.events, resumes]

/-- The lowest of the functions that wait does what is left to do. -/
theorem State.events_over (s : State) (base : List Activation) :
    ({ s with callers := s.callers ++ base } : State).events image callDepth =
      s.events image callDepth ++ resumes image base (advance image callDepth s) := by
  rw [State.events, State.events, resumes_append, ← List.append_assoc, ← advance_eq_over]

/-! ## Memory -/

/-- The memory that is left, unless there is a failure. -/
def Progress.memory? : Progress → Option Memory
  | .running s => some s.world.memory
  | .halted _ w => some w.memory
  | .faulted _ => none

/-- If a memory is left, it is what the events have made of another. -/
def Leaves (m : Memory) (events : List Event) (p : Progress) : Prop :=
  ∀ m', p.memory? = some m' → m' = events.foldl Event.on m

theorem leaves_faulted (m : Memory) (events : List Event) (f : Fault) :
    Leaves m events (.faulted f) := by
  intro m' h
  cases h

theorem storeArgs_eq {sp : Word} {offsets : List Word} :
    ∀ {m m' : Memory} {vs : List Word}, storeArgs sp m offsets vs = .ok m' →
      m' = (List.zipWith (fun offset v => Event.store (sp + offset) v) offsets vs).foldl
        Event.on m := by
  induction offsets with
  | nil =>
    intro m m' vs h
    cases h
    rfl
  | cons offset offsets ih =>
    intro m m' vs h
    cases vs with
    | nil =>
      cases h
      rfl
    | cons v vs =>
      obtain ⟨addr, haddr, h⟩ := bind_eq_ok h
      obtain rfl := checkedAdd_eq_ok haddr
      exact ih h

/-- A statement changes memory by what it stores, and what follows in its function not at all. -/
theorem leaves_stores {w w' : World} {a a' : Activation} {result : Option Word} {st : Stmt}
    {target : Option Label} {p : Progress} (hexec : exec image w a result st = .ok (w', a', target))
    (h : Ensues image w' a' target [] p) : Leaves w.memory (stores image w.memory a result st) p := by
  intro m hm
  have hworld : m = w'.memory := by
    cases h with
    | goes | halted =>
      cases hm
      rfl
    | faulted => cases hm
  cases done_of_exec hexec with
  | label | jump | branch | eval | set => exact hworld
  | store hsrc haddr =>
    simp only [stores, hsrc, haddr]
    exact hworld

theorem leaves_takes (v : Word) (w : World) (a : Activation) :
    Leaves w.memory (takes image v w a) (returned image v w w.sp [a]) := by
  simp only [takes, returned]
  cases a.current? with
  | none => exact leaves_faulted _ _ _
  | some st =>
    simp only
    split
    · exact leaves_faulted _ _ _
    · next hexec => exact leaves_stores hexec (settle_ensues ..)

theorem leaves_does (w : World) (a : Activation) :
    Leaves w.memory (does image w a) (advance image callDepth ⟨w, a, []⟩) := by
  have h := advances image callDepth ⟨w, a, []⟩
  generalize advance image callDepth ⟨w, a, []⟩ = p at h
  cases h with
  | faulted => exact leaves_faulted _ _ _
  | plain hst hcall hexec =>
    simp only [does, hst, hcall]
    exact leaves_stores hexec (settle_ensues ..)
  | provided hst hcall hargs hstore hnone hrun hexec =>
    intro m hm
    simp only [does, hst, hcall, hargs, hstore, hnone, hrun, takes, List.foldl_append,
      ← storeArgs_eq hstore]
    have hstores := leaves_stores hexec (settle_ensues ..) m hm
    rw [(builtin_keeps hrun).1] at hstores ⊢
    exact hstores
  | entered hst hcall hargs hstore hbody _ henter =>
    obtain ⟨_, -, henter⟩ := bind_eq_ok henter
    cases henter
    rintro _ ⟨⟩
    simp only [does, hst, hcall, hargs, hstore, hbody, List.foldl_append]
    exact storeArgs_eq hstore

theorem leaves_resumes {m : Memory} (callers : List Activation) :
    ∀ {events : List Event} {p : Progress}, Leaves m events p →
      Leaves m (events ++ resumes image callers p) (p.over image callers) := by
  induction callers with
  | nil =>
    rintro events (s | ⟨v, w⟩ | f) h
    · rwa [resumes_running, List.append_nil]
    · exact (List.append_nil events).symm ▸ h
    · exact leaves_faulted _ _ _
  | cons c cs ih =>
    rintro events (s | ⟨v, w⟩ | f) h
    · rwa [resumes_running, List.append_nil]
    · rw [resumes, ← List.append_assoc]
      show Leaves m _ (returned image v w w.sp (c :: cs))
      rw [returned_cons v w w.sp c cs]
      refine ih fun m' hm' => ?_
      rw [List.foldl_append, ← h _ rfl]
      exact leaves_takes v w c m' hm'
    · exact leaves_faulted _ _ _

/-- What a step does is all that happens to memory. -/
theorem State.leaves_events (s : State) :
    Leaves s.world.memory (s.events image callDepth) (advance image callDepth s) := by
  rw [advance_eq_over]
  exact leaves_resumes _ (leaves_does _ _)

/-! ## Runs -/

/-- What a run does in so many steps. -/
def eventsOf (image : Image) (callDepth : Nat) : Nat → Progress → List Event
  | n + 1, .running s =>
    s.events image callDepth ++ eventsOf image callDepth n (advance image callDepth s)
  | _, _ => []

theorem eventsOf_succ (n : Nat) (s : State) :
    eventsOf image callDepth (n + 1) (.running s) =
      s.events image callDepth ++ eventsOf image callDepth n (advance image callDepth s) := rfl

theorem eventsOf_ended {p : Progress} (h : ∀ s, p ≠ .running s) (n : Nat) :
    eventsOf image callDepth n p = [] := by
  cases p with
  | running s => exact absurd rfl (h s)
  | halted | faulted => cases n <;> rfl

theorem eventsOf_add (m n : Nat) :
    ∀ p : Progress, eventsOf image callDepth (m + n) p =
      eventsOf image callDepth m p ++ eventsOf image callDepth n (after image callDepth m p) := by
  induction m with
  | zero =>
    intro p
    rw [Nat.zero_add, after_zero]
    cases p <;> rfl
  | succ m ih =>
    intro p
    cases p with
    | running s =>
      rw [Nat.succ_add, eventsOf_succ, eventsOf_succ, ih, List.append_assoc, after_succ]
    | halted | faulted => simp [eventsOf_ended]

/-- What a run does is all that happens to memory. -/
theorem leaves_eventsOf (n : Nat) :
    ∀ s : State, Leaves s.world.memory (eventsOf image callDepth n (.running s))
      (after image callDepth n (.running s)) := by
  induction n with
  | zero =>
    intro s m h
    cases h
    rfl
  | succ n ih =>
    intro s m h
    have hstep : Leaves _ (s.events image callDepth) (advance image callDepth s) := s.leaves_events
    rw [after_succ] at h
    rw [eventsOf_succ, List.foldl_append]
    generalize advance image callDepth s = p at h hstep
    cases p with
    | running s₁ => exact hstep _ rfl ▸ ih s₁ m h
    | halted v w =>
      rw [after_halted] at h
      rw [eventsOf_ended (by simp)]
      exact hstep m h
    | faulted f =>
      rw [after_faulted] at h
      cases h

/-- The function that no one waits for. -/
def State.lowest (s : State) : Activation := s.callers.getLastD s.top

/-- How a run ends: with its result or failure, the temporaries that its lowest function has then, the
memory that is left, and all that was done. -/
structure Ending where
  result : Progress
  temps : Table Temp Word
  memory : Memory
  events : List Event

/-- A run comes to an end by the step from a state. -/
inductive Ends (image : Image) (callDepth : Nat) (s : State) : Ending → Prop
  | step {n : Nat} {t : State} (hrun : after image callDepth n (.running s) = .running t)
      (hlast : ∀ u, advance image callDepth t ≠ .running u) :
      Ends image callDepth s
        { result := advance image callDepth t
          temps := t.lowest.temps
          memory := (eventsOf image callDepth (n + 1) (.running s)).foldl Event.on s.world.memory
          events := eventsOf image callDepth (n + 1) (.running s) }

/-- A run goes on for ever. -/
def Forever (image : Image) (callDepth : Nat) (s : State) : Prop :=
  ∀ n, ∃ t, after image callDepth n (.running s) = .running t

/-- Two runs do the same in the same order, and come to the same end or to none. -/
structure SameRuns (image : Image) (callDepth : Nat) (s s' : State) : Prop where
  events : ∀ (k : Nat) (e : Event),
    (∃ n, (eventsOf image callDepth n (.running s))[k]? = some e) ↔
      ∃ n, (eventsOf image callDepth n (.running s'))[k]? = some e
  ends : ∀ e, Ends image callDepth s e ↔ Ends image callDepth s' e
  forever : Forever image callDepth s ↔ Forever image callDepth s'

variable {s s' : State}

/-- A state of a run comes before the state that the last step starts from. -/
theorem le_of_advance_ended {t u : State} {n m : Nat}
    (ht : after image callDepth n (.running s) = .running t)
    (hend : ∀ v, advance image callDepth t ≠ .running v)
    (hu : after image callDepth m (.running s) = .running u) : m ≤ n := by
  refine Nat.le_of_not_lt fun hlt => ?_
  obtain ⟨v, hv⟩ := running_of_le (show n + 1 ≤ m from hlt) hu
  rw [after_add, ht, after_succ, after_zero] at hv
  exact hend v hv

theorem Ends.unique {e e' : Ending} (h : Ends image callDepth s e) (h' : Ends image callDepth s e') :
    e = e' := by
  obtain ⟨hrun, hlast⟩ := h
  obtain ⟨hrun', hlast'⟩ := h'
  obtain rfl := Nat.le_antisymm (le_of_advance_ended hrun' hlast' hrun)
    (le_of_advance_ended hrun hlast hrun')
  cases hrun.symm.trans hrun'
  rfl

/-- A run goes on for ever unless it ends. -/
theorem forever_iff : Forever image callDepth s ↔ ∀ e, ¬ Ends image callDepth s e := by
  constructor
  · rintro hall _ ⟨hrun, hlast⟩
    obtain ⟨u, hu⟩ := hall (_ + 1)
    exact Nat.not_succ_le_self _ (le_of_advance_ended hrun hlast hu)
  · refine fun h n => Classical.not_forall_not.mp fun hp => ?_
    obtain ⟨k, t, -, hrun, hadv⟩ := exists_last_advance hp rfl
    exact h _ (.step hrun (hadv ▸ hp))

/-! ## Simulation -/

/-- Steps that do nothing, while the lowest function keeps its temporaries. -/
inductive Silently (image : Image) (callDepth : Nat) (temps : Table Temp Word) :
    Progress → Progress → Prop
  | refl (p : Progress) : Silently image callDepth temps p p
  | step {s : State} {q : Progress} (hevents : s.events image callDepth = [])
      (htemps : s.lowest.temps = temps)
      (h : Silently image callDepth temps (advance image callDepth s) q) :
      Silently image callDepth temps (.running s) q

/-- A statement of the lowest function that has no call to make and stores nothing. -/
theorem Silently.alone {w : World} {a : Activation} {st : Stmt} {q : Progress}
    (hst : a.current? = some st) (hcall : Call.inStmt st = none)
    (hstores : stores image w.memory a none st = [])
    (h : Silently image callDepth a.temps (lead image w a none st) q) :
    Silently image callDepth a.temps (.running ⟨w, a, []⟩) q := by
  refine .step ?_ rfl ?_
  · simp only [State.events_alone, does, hst, hcall, hstores]
  · rwa [advance_eq_lead hst hcall]

theorem Silently.exists_after {ts : Table Temp Word} {p q : Progress}
    (h : Silently image callDepth ts p q) :
    ∃ n, after image callDepth n p = q ∧ eventsOf image callDepth n p = [] := by
  induction h with
  | refl p => exact ⟨0, after_zero p, by cases p <;> rfl⟩
  | step hnone _ _ ih =>
    obtain ⟨n, hn, hevents⟩ := ih
    exact ⟨n + 1, hn, by rw [eventsOf_succ, hnone, hevents]; rfl⟩

/-- A step, and steps that do nothing and end the run. -/
theorem Silently.exists_last {ts : Table Temp Word} {p q : Progress}
    (h : Silently image callDepth ts p q) (hq : ∀ t, q ≠ .running t) :
    ∀ {s : State}, advance image callDepth s = p → s.lowest.temps = ts →
      ∃ n t, after image callDepth n (.running s) = .running t ∧ advance image callDepth t = q ∧
        t.lowest.temps = ts ∧
        eventsOf image callDepth (n + 1) (.running s) = s.events image callDepth := by
  induction h with
  | refl p =>
    rintro s rfl hts
    refine ⟨0, s, rfl, rfl, hts, ?_⟩
    rw [eventsOf_succ, eventsOf_ended hq, List.append_nil]
  | step hnone htemps _ ih =>
    intro s hs hts
    obtain ⟨n, t, ht, hadv, hlast, hevents⟩ := ih hq rfl htemps
    refine ⟨n + 1, t, ?_, hadv, hlast, ?_⟩
    · rwa [after_succ, hs]
    · rw [eventsOf_succ, hs, hevents, hnone, List.append_nil]

/-- Two runs have come to related states, or to the same end. -/
inductive Meets (R : State → State → Prop) : Progress → Progress → Prop
  | running {s s' : State} (h : R s s') : Meets R (.running s) (.running s')
  | ended {p : Progress} (h : ∀ s, p ≠ .running s) : Meets R p p

/-- The second of two steps does what the first one does and leads to the same, maybe with steps that
do nothing behind it. -/
structure Matched (image : Image) (callDepth : Nat) (R : State → State → Prop)
    (temps : Table Temp Word) (events events' : List Event) (p p' : Progress) : Prop where
  events : events' = events
  meets : ∃ q, Silently image callDepth temps p' q ∧ Meets R p q

theorem Matched.faulted {R : State → State → Prop} (temps : Table Temp Word) (events : List Event)
    (f : Fault) : Matched image callDepth R temps events events (.faulted f) (.faulted f) :=
  ⟨rfl, _, .refl _, .ended (by simp)⟩

/-- With the same done before. -/
theorem Matched.behind {R : State → State → Prop} {ts : Table Temp Word} {events events' : List Event}
    {p p' : Progress} (before : List Event)
    (h : Matched image callDepth R ts events events' p p') :
    Matched image callDepth R ts (before ++ events) (before ++ events') p p' :=
  ⟨congrArg (before ++ ·) h.events, h.meets⟩

/-- Steps from related states match. -/
structure IsSimulation (image : Image) (callDepth : Nat) (R : State → State → Prop) : Prop where
  temps : ∀ {s s' : State}, R s s' → s'.lowest.temps = s.lowest.temps
  matched : ∀ {s s' : State}, R s s' → Matched image callDepth R s.lowest.temps
    (s.events image callDepth) (s'.events image callDepth) (advance image callDepth s)
    (advance image callDepth s')

namespace IsSimulation

variable {R : State → State → Prop}

/-- Steps are matched by at least as many steps. -/
theorem runs (h : IsSimulation image callDepth R) (n : Nat) :
    ∀ {s s' : State}, R s s' → ∃ n', n ≤ n' ∧
      Meets R (after image callDepth n (.running s)) (after image callDepth n' (.running s')) ∧
      eventsOf image callDepth n' (.running s') = eventsOf image callDepth n (.running s) := by
  induction n with
  | zero => exact fun hs => ⟨0, Nat.le_refl 0, .running hs, rfl⟩
  | succ n ih =>
    intro s s' hs
    obtain ⟨hevents, q, hsilent, hmeets⟩ := h.matched hs
    obtain ⟨k, hk, hnone⟩ := hsilent.exists_after
    have hevents' : eventsOf image callDepth (k + 1) (.running s') = s.events image callDepth := by
      rw [eventsOf_succ, hnone, hevents, List.append_nil]
    rw [after_succ, eventsOf_succ, ← hevents']
    generalize advance image callDepth s = p at hmeets
    cases hmeets with
    | running hs₁ =>
      obtain ⟨n', hle, hrest, hevents₁⟩ := ih hs₁
      refine ⟨k + 1 + n', by omega, ?_, ?_⟩
      · rwa [after_add, after_succ, hk]
      · rw [eventsOf_add, after_succ, hk, hevents₁]
    | ended hend =>
      refine ⟨k + 1 + n, by omega, ?_, ?_⟩
      · rw [after_add, after_succ, hk, after_ended hend]
        exact .ended hend
      · rw [eventsOf_add, after_succ, hk]

theorem forever (h : IsSimulation image callDepth R) (hs : R s s')
    (hall : Forever image callDepth s) : Forever image callDepth s' := by
  intro n
  obtain ⟨n', hle, hmeets, -⟩ := h.runs n hs
  obtain ⟨t, ht⟩ := hall n
  rw [ht] at hmeets
  generalize hp' : after image callDepth n' (.running s') = p' at hmeets
  cases hmeets with
  | running => exact running_of_le hle hp'
  | ended hend => exact absurd rfl (hend t)

theorem ends (h : IsSimulation image callDepth R) (hs : R s s')
    (hmem : s'.world.memory = s.world.memory) {e : Ending} (hends : Ends image callDepth s e) :
    Ends image callDepth s' e := by
  obtain @⟨n, t, hrun, hlast⟩ := hends
  obtain ⟨n', -, hmeets, hevents⟩ := h.runs n hs
  rw [hrun] at hmeets
  generalize hp' : after image callDepth n' (.running s') = p' at hmeets
  cases hmeets with
  | ended hend => exact absurd rfl (hend t)
  | @running _ t' htt' =>
    obtain ⟨hsame, q, hsilent, hmeets⟩ := h.matched htt'
    have hq : q = advance image callDepth t := by
      generalize advance image callDepth t = p at hlast hmeets
      cases hmeets with
      | running => exact absurd rfl (hlast _)
      | ended => rfl
    subst hq
    obtain ⟨k, u, hu, hadv, htemps, hdone⟩ := hsilent.exists_last hlast rfl (h.temps htt')
    have hes : eventsOf image callDepth (n' + k + 1) (.running s') =
        eventsOf image callDepth (n + 1) (.running s) := by
      rw [Nat.add_assoc, eventsOf_add, hp', hevents, hdone, hsame, eventsOf_add n, hrun,
        eventsOf_succ, eventsOf_ended hlast, List.append_nil]
    rw [← hadv, ← htemps, ← hmem, ← hes]
    exact .step (by rw [after_add, hp', hu]) (hadv ▸ hlast)

/-- Related states have the same runs. -/
theorem sameRuns (h : IsSimulation image callDepth R) (hs : R s s')
    (hmem : s'.world.memory = s.world.memory) : SameRuns image callDepth s s' := by
  have hends : ∀ e, Ends image callDepth s e ↔ Ends image callDepth s' e := by
    refine fun e => ⟨h.ends hs hmem, fun he => ?_⟩
    have hnot : ¬ Forever image callDepth s := fun hall => forever_iff.mp (h.forever hs hall) e he
    rw [forever_iff, Classical.not_forall_not] at hnot
    obtain ⟨e', he'⟩ := hnot
    rwa [he.unique (h.ends hs hmem he')]
  refine ⟨fun k e => ⟨?_, ?_⟩, hends, ?_⟩
  · rintro ⟨n, hn⟩
    obtain ⟨n', -, -, hevents⟩ := h.runs n hs
    exact ⟨n', hevents ▸ hn⟩
  · rintro ⟨n, hn⟩
    obtain ⟨n', hle, -, hevents⟩ := h.runs n hs
    obtain ⟨d, rfl⟩ := Nat.exists_eq_add_of_le hle
    refine ⟨n, ?_⟩
    -- what the second run does in fewer steps is where it begins
    rw [← hevents, eventsOf_add, List.getElem?_append_left, hn]
    exact (List.getElem?_eq_some_iff.mp hn).1
  · simp only [forever_iff, hends]

end IsSimulation

end

end MmixBackend.Machine
