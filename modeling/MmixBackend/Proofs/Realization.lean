import MmixBackend.Proofs.Evaluation
import MmixBackend.Proofs.Linear
import MmixBackend.Proofs.Progress

/-!
# Code that realizes an evaluation

When does code in canonical form do what an evaluation does?  The answer is given in terms of
what follows.  `Ends n p x` says that the run from `p` comes to the end that the answer `x`
tells: the same result, the same fault, or no end within `n` steps when the evaluation is
unfinished.  Code realizes an evaluation when, for everything that may follow, the run from its
start ends as the evaluation and what follows tell, provided the run from its end does.

So results, faults and runs without end are all treated by one and the same argument.  The code
of each construct realizes its evaluation when the code of its parts does; the run of a call is
an assumption here, and is discharged by induction on the fuel.
-/

namespace MmixBackend

open Ir

namespace Machine

/-! ## Runs and answers -/

/-- What a whole run has in common. -/
structure Course where
  image : Image
  callDepth : Nat
  /-- May the limit on calls be in the way? -/
  deep : Prop

namespace Course

/-- The run from `p` comes to the end that an answer tells, or to the limit on calls. -/
def Ends (c : Course) (n : Nat) (p : Progress) (x : Answer (Word × World)) : Prop :=
  (c.deep ∧ ∃ k, after c.image c.callDepth k p = .faulted (.callDepth c.callDepth)) ∨
  match x with
  | .value (v, w) =>
    ∃ k w', after c.image c.callDepth k p = .halted v w' ∧ w'.output = w.output
  | .fault f => ∃ k, after c.image c.callDepth k p = .faulted f
  | .unfinished => ∃ s, after c.image c.callDepth n p = .running s
  | .meaningless => False

variable {c : Course}

variable {x : Answer (Word × World)}

theorem ends_of_le {m n : Nat} (h : m ≤ n) {p : Progress} (hx : c.Ends n p x) : c.Ends m p x := by
  rcases hx with hd | hx
  · exact Or.inl hd
  · refine Or.inr ?_
    cases x with
    | unfinished =>
      obtain ⟨s, hs⟩ := hx
      exact running_of_le h hs
    | value r => exact hx
    | fault f => exact hx
    | meaningless => exact hx

theorem ends_step {n : Nat} {s : State} (h : c.Ends n (advance c.image c.callDepth s) x) :
    c.Ends (n + 1) (.running s) x := by
  rcases h with ⟨hd, k, hk⟩ | h
  · exact Or.inl ⟨hd, k + 1, hk⟩
  · refine Or.inr ?_
    cases x with
    | value r =>
      obtain ⟨k, w', hk, ho⟩ := h
      exact ⟨k + 1, w', hk, ho⟩
    | fault f =>
      obtain ⟨k, hk⟩ := h
      exact ⟨k + 1, hk⟩
    | unfinished => exact h
    | meaningless => exact h

theorem ends_advance {n : Nat} {s : State} (h : c.Ends n (advance c.image c.callDepth s) x) :
    c.Ends n (.running s) x :=
  ends_of_le (Nat.le_succ n) (ends_step h)

theorem ends_faulted (n : Nat) (f : Fault) : c.Ends n (.faulted f) (.fault f) :=
  Or.inr ⟨0, rfl⟩

/-- The limit on calls is an end when it may be in the way. -/
theorem ends_callDepth (hd : c.deep) (n : Nat) (x : Answer (Word × World)) :
    c.Ends n (.faulted (.callDepth c.callDepth)) x :=
  Or.inl ⟨hd, 0, rfl⟩

theorem ends_halted (n : Nat) (v : Word) (w w' : World) (h : w'.output = w.output) :
    c.Ends n (.halted v w') (.value (v, w)) :=
  Or.inr ⟨0, w', rfl, h⟩

end Course

/-! ## Temporaries -/

/-- The temporaries handed out before a number have kept their values. -/
def Keeps (limit : Nat) (ts ts' : Table Temp Word) : Prop :=
  ∀ t : Temp, t.index < limit → ts'[t]? = ts[t]?

theorem Keeps.refl (limit : Nat) (ts : Table Temp Word) : Keeps limit ts ts := fun _ _ => rfl

theorem Keeps.trans {l l' : Nat} {ts ts' ts'' : Table Temp Word} (h : Keeps l ts ts')
    (h' : Keeps l' ts' ts'') (hl : l ≤ l') : Keeps l ts ts'' := by
  intro t ht
  rw [h' t (Nat.lt_of_lt_of_le ht hl), h t ht]

theorem Keeps.insert {limit : Nat} {t : Temp} (h : limit ≤ t.index) (ts : Table Temp Word)
    (v : Word) : Keeps limit ts (ts.insert t v) := by
  intro t' ht'
  refine Table.getElem?_insert_of_ne ?_
  rintro rfl
  omega

theorem getElem?_insert_temp (ts : Table Temp Word) (t : Temp) (v : Word) :
    (ts.insert t v)[t]? = some v := Std.ExtTreeMap.getElem?_insert_self

/-! ## A running function -/

/-- A function that has just been entered. -/
def entered (body : Body) (fp : Word) (level : Nat) : Activation :=
  { body, temps := (∅ : Table Temp Word).insert body.chunk.frame.fp fp, position := 0,
    savedSp := fp, level }

/-- Entered at a level, a body does what an evaluation does with the frame pointer, as far as
runs of fewer than `n` steps can tell. -/
def Course.Runs (c : Course) (n level : Nat) (body : Body) (x : Word → Evaluation Word) : Prop :=
  ∀ m < n, ∀ (callers : List Activation) (fp : Word) (w : World)
    (k : Word × World → Answer (Word × World)),
    (∀ v w', c.Ends m (returned c.image v w' fp callers) (k (v, w'))) →
      c.Ends m (.running ⟨w, entered body fp level, callers⟩) (x fp w >>= k)

/-- A running function within a run. -/
structure Site extends Course where
  body : Body
  level : Nat
  callers : List Activation
  /-- What its evaluation looks up. -/
  running : Running
  /-- At the limit on calls, the limit may be in the way. -/
  deep_of_le : callDepth ≤ level → deep
  rounds_pos : 0 < running.rounds

namespace Site

variable (σ : Site)

/-- The function at a position with these temporaries. -/
def activation (p : Nat) (ts : Table Temp Word) : Activation :=
  { body := σ.body, temps := ts, position := p, savedSp := σ.running.fp, level := σ.level }

/-- The run at a position of the function. -/
def here (p : Nat) (ts : Table Temp Word) (w : World) : Progress :=
  .running ⟨w, σ.activation p ts, σ.callers⟩

/-- The frame pointer is in its temporary. -/
def HasFp (ts : Table Temp Word) : Prop := ts[σ.body.chunk.frame.fp]? = some σ.running.fp

/-- A label leads to what a call reaches. -/
def Reaches (l : Label) : Callee → Prop
  | .provided name => σ.image.bodies[l]? = none ∧ σ.image.names.textOf l = name
  | .body frame e => ∃ body, σ.image.bodies[l]? = some body ∧ body.chunk.frame = frame ∧
      σ.Runs σ.running.rounds (σ.level + 1) body (σ.running.run frame · e)

variable {σ}

theorem HasFp.of_keeps {limit : Nat} {ts ts' : Table Temp Word} (h : σ.HasFp ts)
    (hk : Keeps limit ts ts') (hfp : σ.body.chunk.frame.fp.index < limit) : σ.HasFp ts' := by
  rw [HasFp, hk _ hfp]
  exact h

theorem settle_next (w : World) (notes : List Note) (p : Nat) (ts : Table Temp Word) :
    (settle σ.image notes w (σ.activation p ts) none σ.callers).2 = σ.here (p + 1) ts w := by
  unfold settle
  rfl

theorem settle_goto {l : Label} {q : Nat} (h : σ.body.Marks l q) (w : World) (notes : List Note)
    (p : Nat) (ts : Table Temp Word) :
    (settle σ.image notes w (σ.activation p ts) (some l) σ.callers).2 = σ.here q ts w := by
  have hexit : l ≠ (σ.activation p ts).body.chunk.exit := h.inside
  have htarget : (σ.activation p ts).body.targets[l]? = some q := h.target
  unfold settle
  simp only [if_neg hexit, htarget]
  rfl

variable {v : Word} {s s' : Session}

/-- The way out of a function is to return the value of its result. -/
theorem settle_exit {ts : Table Temp Word} (h : ts[σ.body.chunk.frame.rv]? = some v) (w : World)
    (notes : List Note) (p : Nat) :
    (settle σ.image notes w (σ.activation p ts) (some σ.body.chunk.exit) σ.callers).2 =
      returned σ.image v w σ.running.fp σ.callers := by
  have hrv : (σ.activation p ts).temp (σ.activation p ts).body.chunk.frame.rv = .ok v := by
    simp only [Activation.temp, activation, h]
  have halone : (settle σ.image [] w (σ.activation p ts) (some σ.body.chunk.exit) []).2 =
      .halted v { w with sp := σ.running.fp } := by
    unfold settle
    simp only [hrv, show (σ.activation p ts).body.chunk.exit = σ.body.chunk.exit from rfl, if_true]
    rfl
  rw [settle_eq, halone]
  cases σ.callers <;> rfl

theorem advance_here {st : Stmt} {p : Nat} (h : σ.body.code[p]? = some st)
    (ts : Table Temp Word) (w : World) :
    advance σ.image σ.callDepth ⟨w, σ.activation p ts, σ.callers⟩ =
      (step σ.image σ.callDepth ⟨w, σ.activation p ts, σ.callers⟩ st).2 := by
  have hcur : (σ.activation p ts).current? = some st := h
  simp only [advance, hcur]

/-! ## Values that are left to take -/

/-- After the statements of an expression, its value is still to be taken: it is there, or it is
what a call returns. -/
inductive Delivers (σ : Site) (ts : Table Temp Word) (val : Expr) : Evaluation Word → Prop where
  | value {x : Except Fault Word} (plain : Call.inExpr val = none)
      (eval : ∀ m p, Machine.eval σ.image m (σ.activation p ts) none val = x) :
      Delivers σ ts val (Evaluation.lift x)
  | call {call : Call} {callee : Callee} {vs : List Word} {f : Word → Word}
      (call_eq : Call.inExpr val = some call)
      (args : ∀ m p, evalAll σ.image m (σ.activation p ts) call.args = .ok vs)
      (reaches : σ.Reaches call.callee callee)
      (eval : ∀ m p v, Machine.eval σ.image m (σ.activation p ts) (some v) val = .ok (f v)) :
      Delivers σ ts val (f <$> Evaluation.invoke σ.running.run callee call.offsets vs)

/-- A statement takes a value and goes on. -/
structure Uses (σ : Site) (p : Nat) (ts : Table Temp Word) (val : Expr)
    (next : Word → World → Progress) (st : Stmt) : Prop where
  code : σ.body.code[p]? = some st
  call : Call.inStmt st = Call.inExpr val
  fault : ∀ w result f, eval σ.image w.memory (σ.activation p ts) result val = .error f →
    exec σ.image w (σ.activation p ts) result st = .error f
  goes : ∀ w result v, eval σ.image w.memory (σ.activation p ts) result val = .ok v →
    ∃ w' a target, exec σ.image w (σ.activation p ts) result st = .ok (w', a, target) ∧
      ∀ notes, (settle σ.image notes w' a target σ.callers).2 = next v w

section Use

variable {n p : Nat} {ts : Table Temp Word} {val : Expr} {next : Word → World → Progress}
  {st : Stmt} {w : World} {k : Word × World → Answer (Word × World)}

theorem Uses.resume (hu : σ.Uses p ts val next st) {v r fp : Word}
    (hv : ∀ m p, eval σ.image m (σ.activation p ts) (some r) val = .ok v)
    (hk : ∀ w', σ.Ends n (next v w') (k (v, w'))) :
    σ.Ends n (returned σ.image r w fp (σ.activation p ts :: σ.callers))
      (k (v, { w with sp := fp, memory := w.memory.store fp r })) := by
  have hcur : (σ.activation p ts).current? = some st := hu.code
  obtain ⟨w', a, target, hexec, hnext⟩ :=
    hu.goes { w with sp := fp, memory := w.memory.store fp r } (some r) v (hv _ p)
  simp only [returned, hcur, hexec, hnext]
  exact hk _

theorem Uses.ends (hu : σ.Uses p ts val next st) {y : Evaluation Word}
    (hd : σ.Delivers ts val y) (hn : n ≤ σ.running.rounds)
    (hk : ∀ v w', σ.Ends n (next v w') (k (v, w'))) :
    σ.Ends n (σ.here p ts w) (y w >>= k) := by
  cases hd with
  | @value x plain heval =>
    refine Course.ends_advance ?_
    rw [advance_here hu.code, step, hu.call, plain]
    cases x with
    | error f =>
      simp only [hu.fault w none f (heval _ p)]
      exact Course.ends_faulted n f
    | ok v =>
      obtain ⟨w', a, target, hexec, hnext⟩ := hu.goes w none v (heval _ p)
      simp only [hexec, hnext]
      exact hk v w
  | @call call callee vs f call_eq args reaches heval =>
    -- a call takes a step of its own, so the callee may use one step less
    refine Course.ends_of_le (show n ≤ n - 1 + 1 by omega) (Course.ends_step ?_)
    have hk' : ∀ v w', σ.Ends (n - 1) (next v w') (k (v, w')) :=
      fun v w' => Course.ends_of_le (Nat.sub_le n 1) (hk v w')
    rw [advance_here hu.code, step, hu.call, call_eq, Evaluation.map_before]
    simp only [args]
    cases hargs : storeArgs w.sp w.memory call.offsets vs with
    | error cause =>
      rw [Evaluation.invoke_storeArgs_error hargs]
      exact Course.ends_faulted _ _
    | ok m =>
      simp only [invoke]
      cases callee with
      | provided name =>
        obtain ⟨hnone, rfl⟩ := reaches
        rw [Evaluation.invoke_provided_before hargs]
        simp only [hnone]
        cases builtin { w with memory := m } (σ.image.names.textOf call.callee) with
        | error g => exact Course.ends_faulted _ _
        | ok r =>
          obtain ⟨w₁, v⟩ := r
          obtain ⟨w', a, target, hexec, hnext⟩ :=
            hu.goes { w₁ with memory := w₁.memory.store w₁.sp v } (some v) (f v)
              (heval _ p v)
          simp only [hexec, hnext]
          exact hk' _ _
      | body frame e =>
        obtain ⟨body, hbody, rfl, hruns⟩ := reaches
        rw [Evaluation.invoke_body_before hargs]
        simp only [hbody, enter]
        cases Word.checkedSub w.sp body.chunk.frame.size with
        | error cause => exact Course.ends_faulted _ _
        | ok sp =>
          simp only [bind, Except.bind, pure, Except.pure]
          by_cases hlevel : σ.level < σ.callDepth
          · simp only [show (σ.activation p ts).level = σ.level from rfl, hlevel, if_true]
            have hn' : n - 1 < σ.running.rounds := by
              have := σ.rounds_pos
              omega
            exact hruns (n - 1) hn' _ _ _ _ fun v w' =>
              hu.resume (fun m q => heval m q v) fun w'' => hk' (f v) w''
          · simp only [show (σ.activation p ts).level = σ.level from rfl, hlevel, if_false]
            exact Course.ends_callDepth (σ.deep_of_le (Nat.le_of_not_lt hlevel)) _ _

end Use

/-! ## Statements that take a value -/

section Statements

variable {p q : Nat} {ts : Table Temp Word} {val : Expr}

variable {t : Temp}

theorem uses_keep (h : σ.body.code[p]? = some (.move (.temp t) val)) :
    σ.Uses p ts val (fun v w => σ.here (p + 1) (ts.insert t v) w) (.move (.temp t) val) where
  code := h
  call := by cases hc : Call.inExpr val <;> simp [Call.inStmt, Call.inExpr, hc]
  fault w result f hf := by simp [exec, hf, bind, Except.bind]
  goes w result v hv :=
    ⟨w, σ.activation p (ts.insert t v), none,
      by simp only [exec, hv, bind, Except.bind, pure, Except.pure]; rfl,
      fun notes => settle_next w notes p _⟩

theorem uses_load (h : σ.body.code[p]? = some (.move (.temp t) (.mem val))) :
    σ.Uses p ts val (fun v w => σ.here (p + 1) (ts.insert t (w.memory.load v)) w)
      (.move (.temp t) (.mem val)) where
  code := h
  call := by cases hc : Call.inExpr val <;> simp [Call.inStmt, Call.inExpr, hc]
  fault w result f hf := by simp [exec, eval, hf, bind, Except.bind]
  goes w result v hv :=
    ⟨w, σ.activation p (ts.insert t (w.memory.load v)), none,
      by simp only [exec, eval, hv, bind, Except.bind, pure, Except.pure]; rfl,
      fun notes => settle_next w notes p _⟩

theorem uses_drop (h : σ.body.code[p]? = some (.eval val)) :
    σ.Uses p ts val (fun _ w => σ.here (p + 1) ts w) (.eval val) where
  code := h
  call := rfl
  fault w result f hf := by simp [exec, hf, bind, Except.bind]
  goes w result v hv :=
    ⟨w, σ.activation p ts, none, by simp [exec, hv, bind, Except.bind, pure, Except.pure],
      fun notes => settle_next w notes p ts⟩

theorem uses_test {pos neg : Label} (h : σ.body.code[p]? = some (.branch val pos neg))
    {q r : Nat} (hpos : σ.body.Marks pos q) (hneg : σ.body.Marks neg r) :
    σ.Uses p ts val (fun v w => if v ≠ 0 then σ.here q ts w else σ.here r ts w)
      (.branch val pos neg) where
  code := h
  call := rfl
  fault w result f hf := by simp [exec, hf, bind, Except.bind]
  goes w result v hv := by
    refine ⟨w, σ.activation p ts, some (if v ≠ 0 then pos else neg),
      by simp [exec, hv, bind, Except.bind, pure, Except.pure], fun notes => ?_⟩
    by_cases hz : v ≠ 0
    · rw [if_pos hz, if_pos hz]
      exact settle_goto hpos w notes p ts
    · rw [if_neg hz, if_neg hz]
      exact settle_goto hneg w notes p ts

variable {n : Nat} {w : World} {x : Answer (Word × World)}

theorem ends_label {l : Label} (h : σ.body.Marks l p)
    (hx : σ.Ends n (σ.here (p + 1) ts w) x) : σ.Ends (n + 1) (σ.here p ts w) x := by
  refine Course.ends_step ?_
  rw [advance_here h.code, step]
  simp only [Call.inStmt, exec, settle_next]
  exact hx

theorem ends_jump {l : Label} (h : σ.body.code[p]? = some (.jump l)) (hl : σ.body.Marks l q)
    (hx : σ.Ends n (σ.here q ts w) x) : σ.Ends n (σ.here p ts w) x := by
  refine Course.ends_advance ?_
  rw [advance_here h, step]
  simp only [Call.inStmt, exec, settle_goto hl]
  exact hx

theorem ends_exit (h : σ.body.code[p]? = some (.jump σ.body.chunk.exit))
    (hv : ts[σ.body.chunk.frame.rv]? = some v)
    (hx : σ.Ends n (returned σ.image v w σ.running.fp σ.callers) x) :
    σ.Ends n (σ.here p ts w) x := by
  refine Course.ends_advance ?_
  rw [advance_here h, step]
  simp only [Call.inStmt, exec, settle_exit hv]
  exact hx

theorem eval_temp (h : ts[t]? = some v) (m : Memory) (p : Nat) (result : Option Word) :
    eval σ.image m (σ.activation p ts) result (.temp t) = .ok v := by
  simp only [eval, Activation.temp, activation, h]

theorem delivers_temp (h : ts[t]? = some v) :
    σ.Delivers ts (.temp t) (pure v) :=
  .value (x := .ok v) rfl fun m p => eval_temp h m p none

theorem ends_store {a v : Temp} {addr word : Word}
    (h : σ.body.code[p]? = some (.move (.mem (.temp a)) (.temp v))) (ha : ts[a]? = some addr)
    (hv : ts[v]? = some word)
    (hx : σ.Ends n (σ.here (p + 1) ts { w with memory := w.memory.store addr word }) x) :
    σ.Ends n (σ.here p ts w) x := by
  refine Course.ends_advance ?_
  have hcall : Call.inStmt (.move (.mem (.temp a)) (.temp v)) = none := rfl
  rw [advance_here h, step, hcall]
  simp only [exec, eval_temp ha, eval_temp hv, bind, Except.bind, pure, Except.pure, settle_next]
  exact hx

end Statements

/-! ## Expressions -/

/-- The frame pointer is in its temporary, which was handed out before. -/
structure Ready (σ : Site) (s : Session) (ts : Table Temp Word) : Prop where
  old : σ.body.chunk.frame.fp.index < s.names.temps
  hasFp : σ.HasFp ts

theorem Ready.next {ts ts' : Table Temp Word} (h : σ.Ready s ts) (hle : s.names ≤ s'.names)
    (hk : Keeps s.names.temps ts ts') : σ.Ready s' ts' where
  old := Nat.lt_of_lt_of_le h.old (Names.temps_le hle)
  hasFp := h.hasFp.of_keeps hk h.old

theorem Ready.drawn {s : Session} {ts : Table Temp Word} (h : σ.Ready s ts) : σ.Ready s.drawn ts :=
  h.next (Names.le_newTemp s.names) (Keeps.refl _ _)

/-- The canonical statements of an expression, and then its value, do what an evaluation does. -/
def Implements (σ : Site) (x : Evaluation Word) (e : Expr) : Prop :=
  ∀ ⦃loc : Location⦄ ⦃s s' : Session⦄ ⦃pre : List Stmt⦄ ⦃val : Expr⦄,
    e.canonize loc s = .ok (pre, val) s' →
  ∀ ⦃n p q : Nat⦄ ⦃ts : Table Temp Word⦄ ⦃w : World⦄ ⦃k : Word × World → Answer (Word × World)⦄,
    σ.body.Occupies p pre q → σ.Ready s ts → n ≤ σ.running.rounds →
    (∀ ts' w' y, Keeps s.names.temps ts ts' → σ.Delivers ts' val y →
      σ.Ends n (σ.here q ts' w') (y w' >>= k)) →
    σ.Ends n (σ.here p ts w) (x w >>= k)

/-- The canonical statements that put arguments into temporaries do what an evaluation does that
gives their offsets and values. -/
def ImplementsArgs (σ : Site) (offsets : List Word) (x : Evaluation (List Word × List Word))
    (args : List Expr) : Prop :=
  ∀ ⦃loc : Location⦄ ⦃s s' : Session⦄ ⦃pre : List Stmt⦄ ⦃vals : List Expr⦄,
    Expr.canonizeArgs loc args s = .ok (pre, vals) s' →
  ∀ ⦃n p q : Nat⦄ ⦃ts : Table Temp Word⦄ ⦃w : World⦄
    ⦃k : (List Word × List Word) × World → Answer (Word × World)⦄,
    σ.body.Occupies p pre q → σ.Ready s ts → n ≤ σ.running.rounds →
    (∀ ts' w' vs, Keeps s.names.temps ts ts' →
      (∀ m p, evalAll σ.image m (σ.activation p ts') vals = .ok vs) →
      σ.Ends n (σ.here q ts' w') (k ((offsets, vs), w'))) →
    σ.Ends n (σ.here p ts w) (x w >>= k)

section Expressions

variable {x y : Evaluation Word} {e l r : Expr}

/-- An expression whose value is moved into a temporary. -/
theorem Implements.into (h : σ.Implements x e) {loc : Location} {pre : List Stmt} {val : Expr}
    (hc : e.canonize loc s = .ok (pre, val) s') {n limit p q : Nat} {ts : Table Temp Word}
    {w : World} {t : Temp} {k : Word × World → Answer (Word × World)} (ho : σ.body.Occupies p pre q)
    (hm : σ.body.code[q]? = some (.move (.temp t) val)) (hr : σ.Ready s ts)
    (hn : n ≤ σ.running.rounds) (ht : limit ≤ t.index) (hl : limit ≤ s.names.temps)
    (hk : ∀ ts' w' v, Keeps limit ts ts' → ts'[t]? = some v →
      σ.Ends n (σ.here (q + 1) ts' w') (k (v, w'))) :
    σ.Ends n (σ.here p ts w) (x w >>= k) := by
  refine h hc ho hr hn fun ts' w' y hkeep hy => ?_
  refine (uses_keep hm).ends hy hn fun v w'' => ?_
  have hkeep' : Keeps limit ts' (ts'.insert t v) := Keeps.insert ht ts' v
  refine hk _ _ v ?_ (getElem?_insert_temp ts' t v)
  exact fun t' ht' => (hkeep' t' ht').trans (hkeep t' (Nat.lt_of_lt_of_le ht' hl))

theorem implements_const (v : Word) : σ.Implements (pure v) (.const v) := by
  intro loc s s' pre val hc n p q ts w k ho hr hn hk
  obtain ⟨rfl, rfl, rfl⟩ := Expr.canonize_const hc
  obtain rfl : p = q := ho
  exact hk ts w (pure v) (Keeps.refl _ _) (.value (x := .ok v) rfl fun m p => rfl)

theorem implements_fp : σ.Implements (pure σ.running.fp) (.temp σ.body.chunk.frame.fp) := by
  intro loc s s' pre val hc n p q ts w k ho hr hn hk
  obtain ⟨rfl, rfl, rfl⟩ := Expr.canonize_temp hc
  obtain rfl : p = q := ho
  exact hk ts w _ (Keeps.refl _ _) (delivers_temp hr.hasFp)

theorem implements_name {setting : Setting} (hdata : σ.image.data = setting.data)
    (hnames : σ.image.names = setting.names) (l : Label) :
    σ.Implements (Evaluation.address setting l) (.name l) := by
  intro loc s s' pre val hc n p q ts w k ho hr hn hk
  obtain ⟨rfl, rfl, rfl⟩ := Expr.canonize_name hc
  obtain rfl : p = q := ho
  refine hk ts w _ (Keeps.refl _ _) ?_
  unfold Evaluation.address
  rw [← hdata, ← hnames]
  cases ha : σ.image.data[l]? with
  | none => exact .value rfl fun m p => by simp only [eval, ha]
  | some a => exact .value (x := .ok a) rfl fun m p => by simp only [eval, ha]

theorem Implements.mem (h : σ.Implements x e) :
    σ.Implements (x >>= Evaluation.load) (.mem e) := by
  intro loc s s' pre val hc n p q ts w k ho hr hn hk
  obtain ⟨preA, a, s₁, ha, rfl, rfl, -⟩ := Expr.canonize_mem hc
  obtain ⟨r, ho₁, ho₂⟩ := Body.occupies_append.mp ho
  obtain ⟨hcode, rfl⟩ := Body.occupies_singleton.mp ho₂
  rw [Evaluation.bind_before]
  refine h ha ho₁ hr.drawn hn fun ts' w' y hkeep hy => ?_
  refine (uses_load hcode).ends hy hn fun v w'' => ?_
  have hkeep' : Keeps s.names.temps ts (ts'.insert ⟨s.names.temps⟩ (w''.memory.load v)) :=
    Keeps.trans (fun t ht => hkeep t (Nat.lt_succ_of_lt ht)) (Keeps.insert (Nat.le_refl _) _ _)
      (Nat.le_refl _)
  exact hk _ w'' (pure (w''.memory.load v)) hkeep' (delivers_temp (getElem?_insert_temp _ _ _))

theorem Implements.binary (op : BinOp) (hl : σ.Implements x l) (hr : σ.Implements y r) :
    σ.Implements (do let a ← x; let b ← y; return op.eval a b) (.binary op l r) := by
  intro loc s s' pre val hc n p q ts w k ho hready hn hk
  obtain ⟨preL, vl, s₁, preR, vr, s₂, hcl, hcr, rfl, rfl, -⟩ := Expr.canonize_binary hc
  obtain ⟨q₁, ho₁, q₂, ⟨hm₁, rfl⟩, ho⟩ := Body.occupies_append.mp ho
  obtain ⟨q₃, ho₂, ho⟩ := Body.occupies_append.mp ho
  obtain ⟨hm₂, rfl⟩ := Body.occupies_singleton.mp ho
  have hle : s.drawn.names ≤ s₁.names := (Expr.canonizes hcl).le
  have hlt : s.names.temps < s₁.names.temps := Names.temps_le hle
  rw [Evaluation.bind_before]
  refine hl.into hcl ho₁ hm₁ hready.drawn hn (Nat.le_refl _) (Nat.le_succ s.names.temps)
    fun ts₁ w₁ a hk₁ ha => ?_
  have hready₁ : σ.Ready s₁ ts₁ :=
    (hready.next (Names.le_trans (Names.le_newTemp _) hle) hk₁)
  rw [Evaluation.bind_before]
  refine hr.into hcr ho₂ hm₂ hready₁.drawn hn (Nat.le_refl _) (Nat.le_succ s₁.names.temps)
    fun ts₂ w₂ b hk₂ hb => ?_
  have ha' : ts₂[(⟨s.names.temps⟩ : Temp)]? = some a := (hk₂ _ hlt).trans ha
  refine hk ts₂ w₂ (pure (op.eval a b)) (hk₁.trans hk₂ (Nat.le_of_lt hlt)) ?_
  refine .value (x := .ok (op.eval a b)) rfl fun m p => ?_
  rw [eval, eval_temp ha', eval_temp hb]
  rfl

theorem Delivers.unary (op : UnOp) {ts : Table Temp Word} {val : Expr}
    (h : σ.Delivers ts val x) : σ.Delivers ts (.unary op val) (op.eval <$> x) := by
  cases h with
  | @value y plain heval =>
    have hmap : op.eval <$> (Evaluation.lift y) = Evaluation.lift (y.map op.eval) := by
      cases y <;> rfl
    rw [hmap]
    refine .value plain fun m p => ?_
    simp only [eval, heval]
    cases y <;> rfl
  | @call call callee vs f call_eq args reaches heval =>
    rw [← comp_map]
    refine .call call_eq args reaches fun m p v => ?_
    simp only [eval, heval]
    rfl

theorem Implements.unary (op : UnOp) (h : σ.Implements x e) :
    σ.Implements (do let a ← x; return op.eval a) (.unary op e) := by
  intro loc s s' pre val hc n p q ts w k ho hr hn hk
  obtain ⟨v, hv, rfl⟩ := Expr.canonize_unary hc
  rw [Evaluation.bind_before]
  refine h hv ho hr hn fun ts' w' y hkeep hy => ?_
  have := hk ts' w' _ hkeep (hy.unary op)
  rw [Evaluation.map_before] at this
  exact this

theorem implementsArgs_nil : σ.ImplementsArgs [] (pure ([], [])) [] := by
  intro loc s s' pre vals hc n p q ts w k ho hr hn hk
  obtain ⟨rfl, rfl, rfl⟩ := Expr.canonizeArgs_nil hc
  obtain rfl : p = q := ho
  exact hk ts w [] (Keeps.refl _ _) fun m p => rfl

theorem ImplementsArgs.cons {offset : Word} {offsets : List Word} {args : List Expr}
    {xs : Evaluation (List Word × List Word)} (h : σ.Implements x e)
    (hs : σ.ImplementsArgs offsets xs args) :
    σ.ImplementsArgs (offset :: offsets)
      (do let v ← x; let r ← xs; return (offset :: r.1, v :: r.2)) (e :: args) := by
  intro loc s s' pre vals hc n p q ts w k ho hready hn hk
  obtain ⟨preA, v, s₁, rest, vs, ha, has, rfl, rfl⟩ := Expr.canonizeArgs_cons hc
  obtain ⟨q₁, ho₁, q₂, ⟨hm, rfl⟩, ho⟩ := Body.occupies_append.mp ho
  have hle : s.drawn.names ≤ s₁.names := (Expr.canonizes ha).le
  have hlt : s.names.temps < s₁.names.temps := Names.temps_le hle
  rw [Evaluation.bind_before]
  refine h.into ha ho₁ hm hready.drawn hn (Nat.le_refl _) (Nat.le_succ s.names.temps)
    fun ts₁ w₁ a hk₁ hat => ?_
  have hready₁ : σ.Ready s₁ ts₁ :=
    hready.next (Names.le_trans (Names.le_newTemp _) hle) hk₁
  rw [Evaluation.bind_before]
  refine hs has ho hready₁ hn fun ts₂ w₂ bs hk₂ hbs => ?_
  have hat' : ts₂[(⟨s.names.temps⟩ : Temp)]? = some a := (hk₂ _ hlt).trans hat
  refine hk ts₂ w₂ (a :: bs) (hk₁.trans hk₂ (Nat.le_of_lt hlt)) fun m p => ?_
  simp only [evalAll, eval_temp hat', hbs, bind, Except.bind, pure, Except.pure]

theorem ImplementsArgs.call {offsets : List Word} {args : List Expr}
    {xs : Evaluation (List Word × List Word)} (h : σ.ImplementsArgs offsets xs args)
    {f : Label} {callee : Callee} (hf : σ.Reaches f callee) :
    σ.Implements (do let r ← xs; Evaluation.invoke σ.running.run callee r.1 r.2)
      (.call f offsets args) := by
  intro loc s s' pre val hc n p q ts w k ho hr hn hk
  obtain ⟨ts, hts, rfl⟩ := Expr.canonize_call hc
  rw [Evaluation.bind_before]
  refine h hts ho hr hn fun ts' w' vs hkeep hvs => ?_
  have hd : σ.Delivers ts' (.call f offsets ts)
      (id <$> Evaluation.invoke σ.running.run callee offsets vs) :=
    @Delivers.call σ ts' (.call f offsets ts) ⟨f, offsets, ts⟩ callee vs id rfl hvs hf
      fun m p v => rfl
  rw [id_map] at hd
  exact hk ts' w' _ hkeep hd

end Expressions

/-! ## Statements -/

/-- The canonical statements of statements do what an evaluation does. -/
def Performs (σ : Site) (x : Evaluation Unit) (ss : List Stmt) : Prop :=
  ∀ ⦃loc : Location⦄ ⦃s s' : Session⦄ ⦃code : List Stmt⦄,
    Stmt.canonizeAll loc ss s = .ok code s' →
  ∀ ⦃n p q : Nat⦄ ⦃ts : Table Temp Word⦄ ⦃w : World⦄ ⦃k : Unit × World → Answer (Word × World)⦄,
    σ.body.Occupies p code q → σ.Ready s ts → n ≤ σ.running.rounds →
    (∀ ts' w', Keeps s.names.temps ts ts' → σ.Ends n (σ.here q ts' w') (k ((), w'))) →
    σ.Ends n (σ.here p ts w) (x w >>= k)

section Performing

variable {x y : Evaluation Word} {u u' : Evaluation Unit} {e e' : Expr} {ss ss' : List Stmt}

theorem Performs.after (hu : σ.Performs u ss) (hx : σ.Implements x e) :
    σ.Implements (do u; x) (.after (.seq ss) e) := by
  intro loc s s' pre val hc n p q ts w k ho hr hn hk
  obtain ⟨code, s₁, preE, hcode, he, rfl⟩ := Expr.canonize_after hc
  obtain ⟨r, ho₁, ho₂⟩ := Body.occupies_append.mp ho
  have hle : s.names ≤ s₁.names := (Stmt.canonizes hcode).le
  rw [Evaluation.bind_before]
  refine hu (Stmt.canonize_seq hcode) ho₁ hr hn fun ts₁ w₁ hk₁ => ?_
  refine hx he ho₂ (hr.next hle hk₁) hn fun ts₂ w₂ y hk₂ hy => ?_
  exact hk ts₂ w₂ y (hk₁.trans hk₂ (Names.temps_le hle)) hy

theorem performs_nil : σ.Performs (pure ()) [] := by
  intro loc s s' code hc n p q ts w k ho hr hn hk
  obtain ⟨rfl, rfl⟩ := Stmt.canonizeAll_nil hc
  obtain rfl : p = q := ho
  exact hk ts w (Keeps.refl _ _)

theorem Performs.append (hu : σ.Performs u ss) (hu' : σ.Performs u' ss') :
    σ.Performs (do u; u') (ss ++ ss') := by
  intro loc s s' code hc n p q ts w k ho hr hn hk
  obtain ⟨code₁, s₁, code₂, h₁, h₂, rfl⟩ := Stmt.canonizeAll_append hc
  obtain ⟨r, ho₁, ho₂⟩ := Body.occupies_append.mp ho
  have hle : s.names ≤ s₁.names := (Stmt.allCanonizes h₁).le
  rw [Evaluation.bind_before]
  refine hu h₁ ho₁ hr hn fun ts₁ w₁ hk₁ => ?_
  refine hu' h₂ ho₂ (hr.next hle hk₁) hn fun ts₂ w₂ hk₂ => ?_
  exact hk ts₂ w₂ (hk₁.trans hk₂ (Names.temps_le hle))

theorem Performs.seq (hu : σ.Performs u ss) : σ.Performs u [.seq ss] := by
  intro loc s s' code hc
  exact hu (Stmt.canonize_seq (Stmt.canonizeAll_singleton hc))

theorem Implements.drop (hx : σ.Implements x e) :
    σ.Performs (do let _ ← x) [.eval e] := by
  intro loc s s' code hc n p q ts w k ho hr hn hk
  obtain ⟨pre, v, hv, rfl⟩ := Stmt.canonize_eval (Stmt.canonizeAll_singleton hc)
  obtain ⟨r, ho₁, ho⟩ := Body.occupies_append.mp ho
  obtain ⟨hcode, rfl⟩ := Body.occupies_singleton.mp ho
  rw [Evaluation.bind_before]
  refine hx hv ho₁ hr hn fun ts₁ w₁ y hk₁ hy => ?_
  exact (uses_drop hcode).ends hy hn fun _ w₂ => hk ts₁ w₂ hk₁

/-- The address of a store is evaluated before the value. -/
theorem Implements.store (hx : σ.Implements x e) (hy : σ.Implements y e') :
    σ.Performs (do let a ← x; let v ← y; Evaluation.store a v) [.move (.mem e) e'] := by
  intro loc s s' code hc n p q ts w k ho hready hn hk
  obtain ⟨preA, a, s₁, preV, v, s₂, ha, hv, rfl, -⟩ :=
    Stmt.canonize_store (Stmt.canonizeAll_singleton hc)
  obtain ⟨q₁, ho₁, q₂, ⟨hm₁, rfl⟩, ho⟩ := Body.occupies_append.mp ho
  obtain ⟨q₃, ho₂, q₄, ⟨hm₂, rfl⟩, ho⟩ := Body.occupies_append.mp ho
  obtain ⟨hm₃, rfl⟩ := Body.occupies_singleton.mp ho
  have hle : s.drawn.names ≤ s₁.names := (Expr.canonizes ha).le
  have hlt : s.names.temps < s₁.names.temps := Names.temps_le hle
  rw [Evaluation.bind_before]
  refine hx.into ha ho₁ hm₁ hready.drawn hn (Nat.le_refl _) (Nat.le_succ s.names.temps)
    fun ts₁ w₁ addr hk₁ haddr => ?_
  have hready₁ : σ.Ready s₁ ts₁ :=
    hready.next (Names.le_trans (Names.le_newTemp _) hle) hk₁
  rw [Evaluation.bind_before]
  refine hy.into hv ho₂ hm₂ hready₁.drawn hn (Nat.le_refl _) (Nat.le_succ s₁.names.temps)
    fun ts₂ w₂ word hk₂ hword => ?_
  have haddr' : ts₂[(⟨s.names.temps⟩ : Temp)]? = some addr := (hk₂ _ hlt).trans haddr
  refine ends_store hm₃ haddr' hword ?_
  exact hk ts₂ _ (hk₁.trans hk₂ (Nat.le_of_lt hlt))

/-- A branch of the linear code goes to where it went before. -/
theorem Delivers.ends_branch {ts : Table Temp Word} {val : Expr} (hd : σ.Delivers ts val y)
    {n p q r t : Nat} {pos neg : Label} (hb : σ.body.Holds p (.branch val pos neg) q)
    (hpos : σ.body.Marks pos r) (hneg : σ.body.Marks neg t) (hn : n ≤ σ.running.rounds)
    {w : World} {k : Word × World → Answer (Word × World)}
    (hk : ∀ v w', σ.Ends n (if v ≠ 0 then σ.here r ts w' else σ.here t ts w') (k (v, w'))) :
    σ.Ends n (σ.here p ts w) (y w >>= k) := by
  obtain ⟨fall, hcode, hfall, hjump, -⟩ := hb
  refine (uses_test hcode hpos hfall).ends hd hn fun v w' => ?_
  have hkv := hk v w'
  by_cases hz : v ≠ 0
  · rw [if_pos hz] at hkv ⊢
    exact hkv
  · rw [if_neg hz] at hkv ⊢
    exact Course.ends_of_le (Nat.le_succ n) (ends_label hfall (ends_jump hjump hneg hkv))

theorem Implements.cond {onYes onNo done : Label} (hx : σ.Implements x e)
    (hu : σ.Performs u ss) (hu' : σ.Performs u' ss') :
    σ.Performs (do let v ← x; if v ≠ 0 then u else u')
      ([Stmt.branch e onYes onNo, Stmt.label onYes] ++ ss ++ [Stmt.jump done, Stmt.label onNo] ++
        ss' ++ [Stmt.label done]) := by
  intro loc s s' code hc n p q ts w k ho hready hn hk
  obtain ⟨pre, v, s₁, yes, s₂, no, hv, hyes, hno, rfl⟩ := Stmt.canonizeAll_cond hc
  -- the condition from `p`, the branch at `p₁`, the two cases from `p₂` and `p₄`
  obtain ⟨p₁, ho₁, _, hbranch, p₂, ⟨hon, rfl⟩, ho₂⟩ := Body.occupies_append.mp ho
  obtain ⟨p₃, ho₃, _, ⟨hjump, rfl⟩, p₄, ⟨hoff, rfl⟩, ho₄⟩ := Body.occupies_append.mp ho₂
  obtain ⟨p₅, ho₅, ho₆⟩ := Body.occupies_append.mp ho₄
  obtain ⟨hdone, rfl⟩ := Body.occupies_singleton.mp ho₆
  have hle₁ : s.names ≤ s₁.names := (Expr.canonizes hv).le
  have hle₂ : s.names ≤ s₂.names := Names.le_trans hle₁ (Stmt.allCanonizes hyes).le
  rw [Evaluation.bind_before]
  refine hx hv ho₁ hready hn fun ts₁ w₁ y hk₁ hy => ?_
  refine hy.ends_branch hbranch hon hoff hn fun v w₂ => ?_
  by_cases hz : v ≠ 0
  · rw [if_pos hz, if_pos hz]
    refine Course.ends_of_le (Nat.le_succ n) (ends_label hon ?_)
    refine hu hyes ho₃ (hready.next hle₁ hk₁) hn fun ts₂ w₃ hk₂ => ?_
    refine ends_jump hjump hdone (Course.ends_of_le (Nat.le_succ n) (ends_label hdone ?_))
    exact hk ts₂ w₃ (hk₁.trans hk₂ (Names.temps_le hle₁))
  · rw [if_neg hz, if_neg hz]
    refine Course.ends_of_le (Nat.le_succ n) (ends_label hoff ?_)
    refine hu' hno ho₅ (hready.next hle₂ hk₁) hn fun ts₂ w₃ hk₂ => ?_
    refine Course.ends_of_le (Nat.le_succ n) (ends_label hdone ?_)
    exact hk ts₂ w₃ (hk₁.trans hk₂ (Names.temps_le hle₂))

/-- Each round of a loop passes its label, so a loop that is unfinished after so many rounds has
taken at least as many steps. -/
theorem Implements.loop {again into done : Label} (hx : σ.Implements x e)
    (hu : σ.Performs u ss) :
    σ.Performs (Evaluation.repeatWhile x u σ.running.rounds)
      ([Stmt.label again, Stmt.branch e into done, Stmt.label into] ++ ss ++
        [Stmt.jump again, Stmt.label done]) := by
  intro loc s s' code hc n p q ts w k ho hready hn hk
  obtain ⟨pre, v, s₁, code, hv, hcode, rfl⟩ := Stmt.canonizeAll_loop hc
  obtain ⟨_, ⟨hagain, rfl⟩, ho₁⟩ := ho
  obtain ⟨p₁, ho₂, _, hbranch, p₂, ⟨hinto, rfl⟩, ho₃⟩ := Body.occupies_append.mp ho₁
  obtain ⟨p₃, ho₄, _, ⟨hjump, rfl⟩, ho₅⟩ := Body.occupies_append.mp ho₃
  obtain ⟨hdone, rfl⟩ := Body.occupies_singleton.mp ho₅
  have hle : s.names ≤ s₁.names := (Expr.canonizes hv).le
  -- the induction is on the rounds left, for any number of steps up to it
  have hrounds : ∀ (b m : Nat), m ≤ b → m ≤ n → ∀ (ts' : Table Temp Word) (w' : World),
      Keeps s.names.temps ts ts' →
      σ.Ends m (σ.here p ts' w') (Evaluation.repeatWhile x u b w' >>= k) := by
    intro b
    induction b with
    | zero =>
      intro m hm _ ts' w' _
      obtain rfl : m = 0 := Nat.le_zero.mp hm
      exact Or.inr ⟨_, rfl⟩
    | succ b ih =>
      intro m hm hmn ts' w' hk₀
      have hready₀ : σ.Ready s ts' := hready.next (Names.le_refl _) hk₀
      refine Course.ends_of_le (show m ≤ m - 1 + 1 by omega) (ends_label hagain ?_)
      have hm' : m - 1 ≤ σ.running.rounds := by omega
      rw [Evaluation.repeatWhile, Evaluation.bind_before]
      refine hx hv ho₂ hready₀ hm' fun ts₁ w₁ y hk₁ hy => ?_
      refine hy.ends_branch hbranch hinto hdone hm' fun v w₂ => ?_
      have hk₁' : Keeps s.names.temps ts ts₁ := hk₀.trans hk₁ (Nat.le_refl _)
      by_cases hz : v ≠ 0
      · rw [if_pos hz, if_pos hz, Evaluation.bind_before]
        refine Course.ends_of_le (Nat.le_succ (m - 1)) (ends_label hinto ?_)
        refine hu hcode ho₄ (hready₀.next hle hk₁) hm' fun ts₂ w₃ hk₂ => ?_
        refine ends_jump hjump hagain ?_
        exact ih (m - 1) (by omega) (by omega) ts₂ w₃ (hk₁'.trans hk₂ (Names.temps_le hle))
      · rw [if_neg hz, if_neg hz, Evaluation.pure_before]
        refine Course.ends_of_le (Nat.le_succ (m - 1)) (ends_label hdone ?_)
        exact Course.ends_of_le (by omega) (hk ts₁ w₂ hk₁')
  exact hrounds σ.running.rounds n hn (Nat.le_refl n) ts w (Keeps.refl _ _)

/-- The code of a function: its label, the value moved into the temporary of the result, and the
way out. -/
theorem Implements.returns (hx : σ.Implements x e) {loc : Location} {flat : List Stmt}
    {entry : Label} {n q : Nat} {ts : Table Temp Word} {w : World}
    {k : Word × World → Answer (Word × World)}
    (hc : (Stmt.move (.temp σ.body.chunk.frame.rv) e).canonize loc s = .ok flat s')
    (ho : σ.body.Occupies 0 (.label entry :: flat ++ [.jump σ.body.chunk.exit]) q)
    (hr : σ.Ready s ts) (hn : n ≤ σ.running.rounds)
    (hk : ∀ v w', σ.Ends n (returned σ.image v w' σ.running.fp σ.callers) (k (v, w'))) :
    σ.Ends n (σ.here 0 ts w) (x w >>= k) := by
  obtain ⟨pre, v, hv, rfl⟩ := Stmt.canonize_set hc
  obtain ⟨_, ⟨hentry, rfl⟩, ho₁⟩ := ho
  obtain ⟨q₁, ho₂, hexit⟩ := Body.occupies_append.mp ho₁
  obtain ⟨q₂, ho₃, _, ⟨hm₁, rfl⟩, ho₄⟩ := Body.occupies_append.mp ho₂
  obtain ⟨hm₂, rfl⟩ := Body.occupies_singleton.mp ho₄
  obtain ⟨hjump, rfl⟩ := Body.occupies_singleton.mp hexit
  refine Course.ends_of_le (Nat.le_succ n) (ends_label hentry ?_)
  refine hx.into hv ho₃ hm₁ hr.drawn hn (Nat.le_refl _) (Nat.le_succ s.names.temps)
    fun ts₁ w₁ r _ hr₁ => ?_
  have hmove : σ.Ends n (σ.here (q₂ + 1) ts₁ w₁) ((pure r : Evaluation Word) w₁ >>= k) :=
    (uses_keep hm₂).ends (delivers_temp hr₁) hn fun r' w₂ =>
      ends_exit hjump (getElem?_insert_temp _ _ _) (hk r' w₂)
  exact hmove

end Performing

end Site

end Machine

end MmixBackend
