import MmixBackend.Proofs.Progress

/-!
# Where faults come from

What a step of the machine can fail with: a fault of the code itself, exact arithmetic that does
not fit, the limit on calls, or a call under whose label there is no body and whose name the machine
does not provide.  And what runs: every running function has one of the bodies of the image.
-/

namespace MmixBackend.Machine

/-- Code that the machine cannot go on with. -/
def Fault.OfCode : Fault → Prop
  | .unknownLabel .. | .undefinedTemp .. | .unknownData _ | .malformed .. => True
  | .missingEntry _ | .unknownFunction _ | .stepLimit _ | .callDepth _ | .input _
  | .overflow _ => False

/-- The functions that the machine provides. -/
def provided : List String := ["_new", "_del", "_putc", "_getc"]

/-! ## Statements -/

/-- A computation that fails does so in one of its two parts. -/
theorem bind_error {ε α β : Type} {x : Except ε α} {g : α → Except ε β} {e : ε}
    (h : x >>= g = .error e) : x = .error e ∨ ∃ a, x = .ok a ∧ g a = .error e := by
  cases x with
  | error e' =>
    cases h
    exact Or.inl rfl
  | ok a => exact Or.inr ⟨a, rfl, h⟩

theorem bind_eq_ok {ε α β : Type} {x : Except ε α} {g : α → Except ε β} {b : β}
    (h : x >>= g = .ok b) : ∃ a, x = .ok a ∧ g a = .ok b := by
  cases x with
  | error e => cases h
  | ok a => exact ⟨a, rfl, h⟩

theorem checkedAdd_eq_ok {a b c : Word} (h : Word.checkedAdd a b = .ok c) : c = a + b := by
  unfold Word.checkedAdd at h
  simp only at h
  split at h
  · cases h
    rfl
  · cases h

section Statements

variable {image : Image} {m : Memory} {w w' : World} {a a' : Activation} {result : Option Word}
  {target : Option Label} {f : Fault}

theorem Activation.temp_error {t : Temp} (h : a.temp t = .error f) : f.OfCode := by
  unfold Activation.temp at h
  split at h
  · cases h
  · cases h
    trivial

theorem Activation.malformed_error {α : Type} {what : Malformation}
    (h : (a.malformed what : Except Fault α) = .error f) : f.OfCode := by
  cases h
  trivial

/-- A computation in two parts that only code makes fail. -/
theorem ofCode_of_bind {α β : Type} {x : Except Fault α} {g : α → Except Fault β}
    (h : x >>= g = .error f) (hx : x = .error f → f.OfCode)
    (hg : ∀ a, g a = .error f → f.OfCode) : f.OfCode := by
  rcases bind_error h with h | ⟨a, -, h⟩
  · exact hx h
  · exact hg a h

theorem eval_error : ∀ {e : Ir.Expr}, eval image m a result e = .error f → f.OfCode
  | .const _, h => by cases h
  | .name l, h => by
    rw [eval] at h
    split at h
    · cases h
    · cases h
      trivial
  | .temp t, h => Activation.temp_error h
  | .mem e, h => ofCode_of_bind h eval_error nofun
  | .binary op l r, h =>
    ofCode_of_bind h eval_error fun _ h => ofCode_of_bind h eval_error nofun
  | .unary op e, h => ofCode_of_bind h eval_error nofun
  | .call .., h => by
    cases result with
    | some v => cases h
    | none => exact Activation.malformed_error h
  | .after .., h => Activation.malformed_error h

theorem evalAll_error {es : List Ir.Expr} (h : evalAll image m a es = .error f) : f.OfCode := by
  induction es with
  | nil => cases h
  | cons e es ih => exact ofCode_of_bind h eval_error fun _ h => ofCode_of_bind h ih nofun

theorem exec_error {st : Ir.Stmt} (h : exec image w a result st = .error f) : f.OfCode := by
  cases st with
  | label | jump => cases h
  | seq => exact Activation.malformed_error h
  | branch | eval => exact ofCode_of_bind h eval_error nofun
  | move dst src =>
    refine ofCode_of_bind h eval_error fun _ h => ?_
    cases dst with
    | temp => cases h
    | mem e => exact ofCode_of_bind h eval_error nofun
    | const | name | binary | unary | call | after => exact Activation.malformed_error h

/-- All that a statement can do when it is done. -/
inductive Done (image : Image) (w : World) (a : Activation) (result : Option Word) :
    Ir.Stmt → World → Activation → Option Label → Prop
  | label {l : Label} : Done image w a result (.label l) w a none
  | jump {l : Label} : Done image w a result (.jump l) w a (some l)
  | branch {c : Ir.Expr} {pos neg : Label} {v : Word}
      (hc : eval image w.memory a result c = .ok v) :
      Done image w a result (.branch c pos neg) w a (some (if v ≠ 0 then pos else neg))
  | eval {e : Ir.Expr} {v : Word} (he : eval image w.memory a result e = .ok v) :
      Done image w a result (.eval e) w a none
  | set {t : Temp} {src : Ir.Expr} {v : Word} (hsrc : eval image w.memory a result src = .ok v) :
      Done image w a result (.move (.temp t) src) w { a with temps := a.temps.insert t v } none
  | store {e src : Ir.Expr} {addr v : Word} (hsrc : eval image w.memory a result src = .ok v)
      (haddr : eval image w.memory a result e = .ok addr) :
      Done image w a result (.move (.mem e) src) { w with memory := w.memory.store addr v } a none

theorem done_of_exec {st : Ir.Stmt} (h : exec image w a result st = .ok (w', a', target)) :
    Done image w a result st w' a' target := by
  cases st with
  | label =>
    cases h
    exact .label
  | jump =>
    cases h
    exact .jump
  | seq => cases h
  | branch =>
    obtain ⟨v, hc, h⟩ := bind_eq_ok h
    cases h
    exact .branch hc
  | eval =>
    obtain ⟨v, he, h⟩ := bind_eq_ok h
    cases h
    exact .eval he
  | move dst src =>
    obtain ⟨v, hsrc, h⟩ := bind_eq_ok h
    cases dst with
    | temp =>
      cases h
      exact .set hsrc
    | mem e =>
      obtain ⟨addr, haddr, h⟩ := bind_eq_ok h
      cases h
      exact .store hsrc haddr
    | const | name | binary | unary | call | after => cases h

/-- A statement changes nothing of its function but the temporaries, and nothing of what functions
share but memory. -/
theorem exec_same {st : Ir.Stmt} (h : exec image w a result st = .ok (w', a', target)) :
    ∃ ts m, a' = { a with temps := ts } ∧ w' = { w with memory := m } := by
  cases done_of_exec h with
  | label | jump | branch | eval | set | store => exact ⟨_, _, rfl, rfl⟩

theorem exec_body {st : Ir.Stmt} (h : exec image w a result st = .ok (w', a', target)) :
    a'.body = a.body := by
  obtain ⟨ts, _, rfl, -⟩ := exec_same h
  rfl

end Statements

section Likeness

variable {image image' : Image} {a a' : Activation} (hdata : image'.data = image.data)
  (hnames : image'.names = image.names) (hname : a'.name = a.name) (htemps : a'.temps = a.temps)
include hdata hnames hname htemps

/-- Values depend on the data and the temporaries, and failures on names. -/
theorem eval_congr (m : Memory) (result : Option Word) (e : Ir.Expr) :
    eval image' m a' result e = eval image m a result e := by
  cases e with
  | const => rfl
  | name => rw [eval, eval, hdata, hnames]
  | temp => rw [eval, eval, Activation.temp, Activation.temp, hname, htemps]
  | mem e | unary _ e => rw [eval, eval, eval_congr m result e]
  | binary _ l r => rw [eval, eval, eval_congr m result l, eval_congr m result r]
  | call | after => simp only [eval, Activation.malformed, hname]

theorem evalAll_congr (m : Memory) (es : List Ir.Expr) :
    evalAll image' m a' es = evalAll image m a es := by
  induction es with
  | nil => rfl
  | cons e es ih => rw [evalAll, evalAll, eval_congr hdata hnames hname htemps, ih]

theorem exec_congr (w : World) (result : Option Word) (st : Ir.Stmt) :
    exec image' w a' result st = (exec image w a result st).map fun x =>
      (x.1, { a' with temps := x.2.1.temps }, x.2.2) := by
  have heval := eval_congr hdata hnames hname htemps w.memory result
  rcases a' with ⟨body, temps, position, savedSp, level⟩
  obtain rfl : temps = a.temps := htemps
  cases st with
  | label | jump => rfl
  | seq =>
    simp only [exec, Activation.malformed, hname]
    rfl
  | branch e | eval e =>
    simp only [exec, heval]
    cases eval image w.memory a result e <;> rfl
  | move dst src =>
    simp only [exec, heval]
    cases eval image w.memory a result src with
    | error f => rfl
    | ok v =>
      cases dst with
      | temp => rfl
      | mem e =>
        simp only
        cases eval image w.memory a result e <;> rfl
      | const | name | binary | unary | call | after =>
        simp only [Activation.malformed, hname]
        rfl

end Likeness

/-! ## Steps -/

/-- A call that a provided function cannot answer. -/
theorem builtin_error {w : World} {name : String} {f : Fault} (h : builtin w name = .error f) :
    (∃ cause, f = .overflow cause) ∨ f = .unknownFunction name ∧ name ∉ provided := by
  have hexact : ∀ {x : Except Overflow Word} {f : Fault}, exactly x = .error f →
      ∃ cause, f = .overflow cause := by
    intro x f hx
    cases x with
    | ok => cases hx
    | error cause =>
      cases hx
      exact ⟨cause, rfl⟩
  unfold builtin at h
  rcases bind_error h with h | ⟨_, -, h⟩
  · exact Or.inl (hexact h)
  · simp only at h
    split at h
    · rcases bind_error h with h | ⟨_, -, h⟩
      · exact Or.inl (hexact h)
      · cases h
    · split at h
      · cases h
      · split at h
        · cases h
        · split at h
          · split at h <;> cases h
          · cases h
            exact Or.inr ⟨rfl, by simp [provided, *]⟩

theorem builtin_keeps {w w' : World} {name : String} {v : Word} (h : builtin w name = .ok (w', v)) :
    w'.memory = w.memory ∧ w'.sp = w.sp := by
  unfold builtin at h
  obtain ⟨addr, -, h⟩ := bind_eq_ok h
  dsimp only at h
  split at h
  · obtain ⟨hp, -, h⟩ := bind_eq_ok h
    cases h
    exact ⟨rfl, rfl⟩
  · split at h
    · cases h
      exact ⟨rfl, rfl⟩
    · split at h
      · cases h
        exact ⟨rfl, rfl⟩
      · split at h
        · split at h <;>
          · cases h
            exact ⟨rfl, rfl⟩
        · cases h

/-- The body of every running function satisfies a condition. -/
def State.All (P : Body → Prop) (s : State) : Prop :=
  P s.top.body ∧ ∀ a ∈ s.callers, P a.body

/-- Where the machine goes: to a fault of one kind, to the end, or to a state in which only bodies of
one kind run. -/
inductive Progress.Goes (F : Fault → Prop) (P : Body → Prop) : Progress → Prop where
  | faulted {f : Fault} (h : F f) : Goes F P (.faulted f)
  | halted {exit : Word} {w : World} : Goes F P (.halted exit w)
  | running {s : State} (h : s.All P) : Goes F P (.running s)

section Goes

variable {image : Image} {callDepth : Nat} {s s' : State} {F F' : Fault → Prop} {P : Body → Prop}

theorem Progress.Goes.imp {p : Progress} (h : p.Goes F P) (hF : ∀ f, F f → F' f) :
    p.Goes F' P := by
  cases h with
  | faulted h => exact .faulted (hF _ h)
  | halted => exact .halted
  | running h => exact .running h

/-- All that can follow a statement: the function goes on at a position, code is at fault, the run
ends, or the function returns and the statement of the one that waits for it goes on. -/
inductive Ensues (image : Image) :
    World → Activation → Option Label → List Activation → Progress → Prop
  | goes {w : World} {a : Activation} {target : Option Label} {callers : List Activation} {j : Nat}
      (hj : target = none ∧ j = a.position + 1 ∨
        ∃ l, target = some l ∧ l ≠ a.body.chunk.exit ∧ a.body.targets[l]? = some j) :
      Ensues image w a target callers (.running ⟨w, { a with position := j }, callers⟩)
  | faulted {w : World} {a : Activation} {target : Option Label} {callers : List Activation}
      {f : Fault} (hf : f.OfCode) : Ensues image w a target callers (.faulted f)
  | halted {w : World} {a : Activation} {v : Word} (hv : a.temp a.body.chunk.frame.rv = .ok v) :
      Ensues image w a (some a.body.chunk.exit) [] (.halted v { w with sp := a.savedSp })
  | returned {w w' : World} {a c c' : Activation} {target : Option Label} {cs : List Activation}
      {v : Word} {st : Ir.Stmt} {p : Progress} (hst : c.current? = some st)
      (hexec : exec image { w with sp := a.savedSp, memory := w.memory.store a.savedSp v } c
        (some v) st = .ok (w', c', target))
      (h : Ensues image w' c' target cs p) :
      Ensues image w a (some a.body.chunk.exit) (c :: cs) p

theorem settle_ensues (callers : List Activation) (notes : List Note) (w : World)
    (a : Activation) (target : Option Label) :
    Ensues image w a target callers (settle image notes w a target callers).2 := by
  cases target with
  | none =>
    unfold settle
    exact .goes (Or.inl ⟨rfl, rfl⟩)
  | some l =>
    unfold settle
    simp only
    split
    · next hexit =>
      subst hexit
      cases hv : a.temp a.body.chunk.frame.rv with
      | error f => exact .faulted (Activation.temp_error hv)
      | ok v =>
        cases callers with
        | nil => exact .halted hv
        | cons c cs =>
          simp only
          cases hst : c.current? with
          | none => exact .faulted trivial
          | some st =>
            simp only
            split
            · next hexec => exact .faulted (exec_error hexec)
            · next hexec => exact .returned hst hexec (settle_ensues cs ..)
    · next hne =>
      cases hl : a.body.targets[l]? with
      | none => exact .faulted trivial
      | some j => exact .goes (Or.inr ⟨l, rfl, hne, hl⟩)

/-- After a statement only code can be at fault, and the functions that go on ran before. -/
theorem Ensues.all {w : World} {a : Activation} {target : Option Label} {callers : List Activation}
    {p : Progress} (h : Ensues image w a target callers p) :
    P a.body → (∀ b ∈ callers, P b.body) → p.Goes Fault.OfCode P := by
  induction h with
  | goes => exact fun ha hcallers => .running ⟨ha, hcallers⟩
  | faulted hf => exact fun _ _ => .faulted hf
  | halted => exact fun _ _ => .halted
  | returned _ hexec _ ih =>
    intro _ hcallers
    obtain ⟨hc, hcs⟩ := List.forall_mem_cons.mp hcallers
    exact ih (by rwa [exec_body hexec]) hcs

def State.AtCall (s : State) (l : Label) : Prop :=
  ∃ st call, s.top.current? = some st ∧ Call.inStmt st = some call ∧ call.callee = l

/-- What a step at a state can fail with: a fault of the code, an overflow, the limit on calls, or a
call of a label without a body that is not provided. -/
def State.FailsWith (image : Image) (callDepth : Nat) (s : State) (f : Fault) : Prop :=
  f.OfCode ∨ (∃ cause, f = .overflow cause) ∨ f = .callDepth callDepth ∨
    ∃ l, s.AtCall l ∧ image.bodies[l]? = none ∧ f = .unknownFunction (image.names.textOf l) ∧
      image.names.textOf l ∉ provided

/-- All that a step can do: fail as said, do its statement, maybe with what the machine gives for its
call, or enter a function. -/
inductive Advances (image : Image) (callDepth : Nat) (s : State) : Progress → Prop
  | faulted {f : Fault} (hf : s.FailsWith image callDepth f) : Advances image callDepth s (.faulted f)
  | plain {st : Ir.Stmt} {w : World} {a : Activation} {target : Option Label}
      (hst : s.top.current? = some st) (hcall : Call.inStmt st = none)
      (hexec : exec image s.world s.top none st = .ok (w, a, target)) :
      Advances image callDepth s (settle image [] w a target s.callers).2
  | provided {st : Ir.Stmt} {call : Call} {vs : List Word} {m : Memory} {w w' : World} {v : Word}
      {a : Activation} {target : Option Label} (hst : s.top.current? = some st)
      (hcall : Call.inStmt st = some call)
      (hargs : evalAll image s.world.memory s.top call.args = .ok vs)
      (hstore : storeArgs s.world.sp s.world.memory call.offsets vs = .ok m)
      (hnone : image.bodies[call.callee]? = none)
      (hrun : builtin { s.world with memory := m } (image.names.textOf call.callee) = .ok (w, v))
      (hexec : exec image { w with memory := w.memory.store w.sp v } s.top (some v) st =
        .ok (w', a, target)) :
      Advances image callDepth s (settle image [] w' a target s.callers).2
  | entered {st : Ir.Stmt} {call : Call} {vs : List Word} {m : Memory} {b : Body} {w : World}
      {callee : Activation} (hst : s.top.current? = some st) (hcall : Call.inStmt st = some call)
      (hargs : evalAll image s.world.memory s.top call.args = .ok vs)
      (hstore : storeArgs s.world.sp s.world.memory call.offsets vs = .ok m)
      (hbody : image.bodies[call.callee]? = some b) (hlevel : s.top.level < callDepth)
      (henter : enter { s.world with memory := m } b (s.top.level + 1) = .ok (w, callee)) :
      Advances image callDepth s (.running ⟨w, callee, s.top :: s.callers⟩)

theorem advances (image : Image) (callDepth : Nat) (s : State) :
    Advances image callDepth s (advance image callDepth s) := by
  unfold advance
  cases hst : s.top.current? with
  | none => exact .faulted (Or.inl trivial)
  | some st =>
    simp only [step]
    cases hcall : Call.inStmt st with
    | none =>
      simp only
      cases hexec : exec image s.world s.top none st with
      | error f => exact .faulted (Or.inl (exec_error hexec))
      | ok r => exact .plain hst hcall hexec
    | some call =>
      simp only
      cases hargs : evalAll image s.world.memory s.top call.args with
      | error f => exact .faulted (Or.inl (evalAll_error hargs))
      | ok vs =>
        simp only
        cases hstore : storeArgs s.world.sp s.world.memory call.offsets vs with
        | error cause => exact .faulted (Or.inr (Or.inl ⟨_, rfl⟩))
        | ok m =>
          simp only [invoke]
          cases hbody : image.bodies[call.callee]? with
          | some b =>
            simp only
            cases henter : enter { s.world with memory := m } b (s.top.level + 1) with
            | error cause => exact .faulted (Or.inr (Or.inl ⟨_, rfl⟩))
            | ok r =>
              simp only
              split
              · next hlevel => exact .entered hst hcall hargs hstore hbody hlevel henter
              · exact .faulted (Or.inr (Or.inr (Or.inl rfl)))
          | none =>
            simp only
            cases hrun : builtin { s.world with memory := m } (image.names.textOf call.callee) with
            | error f =>
              rcases builtin_error hrun with hover | ⟨rfl, hname⟩
              · exact .faulted (Or.inr (Or.inl hover))
              · exact .faulted
                  (Or.inr (Or.inr (Or.inr ⟨_, ⟨st, call, hst, hcall, rfl⟩, hbody, rfl, hname⟩)))
            | ok r =>
              simp only
              split
              · next hexec => exact .faulted (Or.inl (exec_error hexec))
              · next hexec =>
                rw [settle_notes _ _ []]
                exact .provided hst hcall hargs hstore hbody hrun hexec

/-- A step goes on with what ran before or with a body of the image, if it does not fail. -/
theorem advance_goes (hs : s.All P)
    (hP : ∀ (l : Label) (b : Body), image.bodies[l]? = some b → P b) :
    (advance image callDepth s).Goes (s.FailsWith image callDepth) P := by
  have h := advances image callDepth s
  generalize advance image callDepth s = p at h
  cases h with
  | faulted hf => exact .faulted hf
  | plain _ _ hexec | provided _ _ _ _ _ _ hexec =>
    refine ((settle_ensues ..).all ?_ hs.2).imp fun f hf => Or.inl hf
    rw [exec_body hexec]
    exact hs.1
  | entered _ _ _ _ hbody _ henter =>
    refine .running ⟨?_, List.forall_mem_cons.mpr hs⟩
    obtain ⟨_, -, henter⟩ := bind_eq_ok henter
    cases henter
    exact hP _ _ hbody

theorem advance_error {f : Fault} (h : advance image callDepth s = .faulted f) :
    s.FailsWith image callDepth f := by
  have hgo : (advance image callDepth s).Goes (s.FailsWith image callDepth) fun _ => True :=
    advance_goes ⟨trivial, fun _ _ => trivial⟩ fun _ _ _ => trivial
  rw [h] at hgo
  cases hgo with
  | faulted hf => exact hf

theorem State.All.advance (hs : s.All P)
    (hP : ∀ (l : Label) (b : Body), image.bodies[l]? = some b → P b)
    (h : advance image callDepth s = .running s') : s'.All P := by
  have hgo : (Machine.advance image callDepth s).Goes (s.FailsWith image callDepth) P :=
    advance_goes hs hP
  rw [h] at hgo
  cases hgo with
  | running hs' => exact hs'

end Goes

/-! ## Runs -/

section Runs

variable {image : Image} {callDepth n : Nat} {s : State}

theorem State.All.after {P : Body → Prop}
    (hP : ∀ (l : Label) (b : Body), image.bodies[l]? = some b → P b) :
    ∀ {n : Nat} {s s' : State}, s.All P → after image callDepth n (.running s) = .running s' →
      s'.All P := by
  intro n
  induction n with
  | zero =>
    intro s s' hs h
    cases h
    exact hs
  | succ n ih =>
    intro s s' hs h
    obtain ⟨s₁, hadv, h⟩ := exists_of_after_succ h
    exact ih (hs.advance hP hadv) h

/-- A run that came to an end did so at one of its steps. -/
theorem exists_last_advance {p : Progress} (hp : ∀ s, p ≠ .running s) :
    ∀ {n : Nat} {s : State}, after image callDepth n (.running s) = p →
      ∃ k s', k < n ∧ after image callDepth k (.running s) = .running s' ∧
        advance image callDepth s' = p := by
  intro n
  induction n with
  | zero =>
    intro s h
    exact absurd h.symm (hp s)
  | succ n ih =>
    intro s h
    rw [after_succ] at h
    by_cases hend : ∀ t, advance image callDepth s ≠ .running t
    · rw [after_ended hend] at h
      exact ⟨0, s, n.succ_pos, rfl, h⟩
    · obtain ⟨s₁, hadv⟩ := Classical.not_forall_not.mp hend
      rw [hadv] at h
      obtain ⟨k, s', hk, hrun, hlast⟩ := ih h
      refine ⟨k + 1, s', Nat.succ_lt_succ hk, ?_, hlast⟩
      rw [after_succ, hadv]
      exact hrun

/-- A run that fails does so at one of its steps. -/
theorem exists_advance_of_after {f : Fault} {n : Nat} {s : State}
    (h : after image callDepth n (.running s) = .faulted f) :
    ∃ k s', k < n ∧ after image callDepth k (.running s) = .running s' ∧
      advance image callDepth s' = .faulted f :=
  exists_last_advance (fun _ h => by cases h) h

end Runs

end MmixBackend.Machine
