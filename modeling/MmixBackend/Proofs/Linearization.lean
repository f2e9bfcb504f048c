import MmixBackend.Proofs.Events
import MmixBackend.Proofs.WellFormed

/-!
# Linear code does what the code did

Giving a branch a label of its own moves every statement behind it, and sends the run through a
label and a jump when the branch does not go.  A statement of the code still stands in the linear
form, at its `linearPosition`, and a label that was there before leads to where it stands now.

Main statement: a function runs the same with its code in linear form.
-/

namespace MmixBackend

open Ir Build

instance (n : Names) (l : Label) : Decidable (n.HasLabel l) :=
  inferInstanceAs (Decidable (l.index < n.labels.size))

theorem Names.hasLabel_newLabel {n : Names} {l : Label} :
    n.newLabel.2.HasLabel l ↔ n.HasLabel l ∨ l = ⟨n.labels.size⟩ := by
  rcases l with ⟨i⟩
  simp only [Names.HasLabel, Label.mk.injEq]
  exact Array.size_push .. ▸ Nat.lt_succ_iff_lt_or_eq

/-- Linearization always comes to its end. -/
theorem exists_linearize (ss : List Stmt) : ∀ s : Session, ∃ lin s', linearize ss s = .ok lin s' := by
  induction ss with
  | nil => exact fun s => ⟨[], s, rfl⟩
  | cons st ss ih =>
    intro s
    cases st with
    | branch c pos neg =>
      obtain ⟨lin, s', h⟩ := ih { s with names := s.names.newLabel.2 }
      exact ⟨_, s', bind_ok.mpr ⟨_, _, newLabel_ok.mpr ⟨rfl, rfl⟩, bind_ok.mpr ⟨lin, s', h, rfl⟩⟩⟩
    | move | eval | jump | label | seq =>
      obtain ⟨lin, s', h⟩ := ih s
      exact ⟨_ :: lin, s', bind_ok.mpr ⟨lin, s', h, rfl⟩⟩

/-! ## Positions -/

/-- Where a statement stands in the linear form of its code. -/
def linearPosition : List Stmt → Nat → Nat
  | st :: ss, i + 1 => linearPosition ss i + if st.isBranch then 3 else 1
  | _, i => i

@[simp] theorem linearPosition_zero (ss : List Stmt) : linearPosition ss 0 = 0 := by
  cases ss <;> rfl

theorem linearPosition_cons {st : Stmt} (hst : st.isBranch = false) (ss : List Stmt) (i : Nat) :
    linearPosition (st :: ss) (i + 1) = linearPosition ss i + 1 := by
  rw [linearPosition, hst]
  rfl

/-- One statement further, unless it is a branch that is passed. -/
theorem linearPosition_succ {st : Stmt} (hst : st.isBranch = false) {ss : List Stmt} :
    ∀ {i : Nat}, ss[i]? = some st → linearPosition ss (i + 1) = linearPosition ss i + 1 := by
  induction ss with
  | nil =>
    intro i h
    cases h
  | cons st' ss ih =>
    intro i h
    cases i with
    | zero =>
      cases h
      rw [linearPosition_cons hst, linearPosition_zero, linearPosition_zero]
    | succ i =>
      rw [linearPosition, ih h, linearPosition]
      omega

/-- A statement of the code, or its end, is at this position of the linear form.  Behind a branch
are a label that was not handed out and a jump to where the branch went on zero. -/
def Stands (n : Names) (lin : List Stmt) (p : Nat) : Option Stmt → Prop
  | some (.branch e pos neg) => ∃ fall, ¬ n.HasLabel fall ∧ lin[p]? = some (.branch e pos fall) ∧
      lin[p + 1]? = some (.label fall) ∧ lin[p + 2]? = some (.jump neg)
  | st => lin[p]? = st

/-- With more statements in front. -/
theorem Stands.behind {n n₁ : Names} (hle : n ≤ n₁) {lin : List Stmt} {p : Nat} (xs : List Stmt)
    {o : Option Stmt} (h : Stands n₁ lin p o) : Stands n (xs ++ lin) (p + xs.length) o := by
  have hat : ∀ k, (xs ++ lin)[p + xs.length + k]? = lin[p + k]? := by
    intro k
    rw [Nat.add_right_comm, List.getElem?_append_right (Nat.le_add_left ..), Nat.add_sub_cancel]
  have hfirst := hat 0
  match o, h with
  | some (.branch e pos neg), ⟨fall, hfall, h₀, h₁, h₂⟩ =>
    exact ⟨fall, fun hl => hfall (Nat.lt_of_lt_of_le hl (Names.labels_le hle)),
      hfirst.trans h₀, (hat 1).trans h₁, (hat 2).trans h₂⟩
  | none, h | some (.label _), h | some (.jump _), h | some (.eval _), h | some (.move ..), h
  | some (.seq _), h => exact hfirst.trans h

namespace Linearizes

variable {n n' : Names} {ss lin : List Stmt}

theorem stands (h : Linearizes n ss lin n') (i : Nat) :
    Stands n lin (linearPosition ss i) ss[i]? := by
  induction h generalizing i with
  | nil => exact rfl
  | @branch n _ e pos neg _ _ _ ih =>
    cases i with
    | zero => exact ⟨_, Names.not_hasLabel_newLabel n, rfl, rfl, rfl⟩
    | succ i => exact (ih i).behind (Names.le_newLabel n) [_, _, .jump neg]
  | @other n _ st _ _ hst _ ih =>
    cases i with
    | zero =>
      cases st with
      | branch => cases hst
      | label | jump | eval | move | seq => exact rfl
    | succ i =>
      rw [linearPosition_cons hst]
      exact (ih i).behind (Names.le_refl n) [st]

/-- The labels of linear code are old ones or were not handed out before. -/
theorem label_mem (h : Linearizes n ss lin n') {l : Label} (hl : .label l ∈ lin) :
    .label l ∈ ss ∨ ¬ n.HasLabel l := by
  induction h with
  | nil => exact Or.inl hl
  | @branch n _ _ _ _ _ _ _ ih =>
    simp only [List.mem_cons, Stmt.label.injEq, reduceCtorEq, false_or] at hl
    rcases hl with rfl | hl
    · exact Or.inr (Names.not_hasLabel_newLabel n)
    · exact (ih hl).imp (List.mem_cons_of_mem _) fun hnew hl =>
        hnew (Names.hasLabel_newLabel.mpr (Or.inl hl))
  | other _ _ ih =>
    rcases List.mem_cons.mp hl with rfl | hl
    · exact Or.inl List.mem_cons_self
    · exact (ih hl).imp_left (List.mem_cons_of_mem _)

theorem nodup_labels (h : Linearizes n ss lin n') (hnodup : (Stmt.listLabels ss).Nodup)
    (hold : ∀ l ∈ Stmt.listLabels ss, n.HasLabel l) : (Stmt.listLabels lin).Nodup := by
  obtain ⟨fresh, hfresh, hperm⟩ := h.supplies
  refine hperm.nodup_iff.mpr (List.nodup_append.mpr ⟨hnodup, hfresh.nodup, ?_⟩)
  rintro l hl _ hl' rfl
  exact hfresh.not_mem (hold l hl) hl'

end Linearizes

namespace Machine

/-- Code whose labels were handed out, each for one place, and its linear form. -/
structure HasLinear (n : Names) (c : CodeChunk) (lin : List Stmt) : Prop where
  linearizes : ∃ n', Linearizes n c.stmts lin n'
  nodup : (Stmt.listLabels c.stmts).Nodup
  labels : ∀ l ∈ Stmt.listLabels c.stmts, n.HasLabel l
  goals : ∀ st ∈ c.stmts, ∀ l ∈ st.goals, n.HasLabel l
  exit : n.HasLabel c.exit

/-- A function at a statement, with the code of a chunk and with the linear form of it. -/
inductive Activation.Linked (c : CodeChunk) (lin : List Stmt) : Activation → Activation → Prop
  | intro (temps : Table Temp Word) (position : Nat) (savedSp : Word) (level : Nat) :
      Linked c lin ⟨Body.ofChunk c, temps, position, savedSp, level⟩
        ⟨Body.ofChunk { c with stmts := lin }, temps, linearPosition c.stmts position, savedSp, level⟩

/-- The lowest function has the code of a chunk in one state and the linear form of it in the other,
and nothing else is different. -/
inductive Linked (c : CodeChunk) (lin : List Stmt) : State → State → Prop
  | alone {w : World} {a a' : Activation} (h : a.Linked c lin a') :
      Linked c lin ⟨w, a, []⟩ ⟨w, a', []⟩
  | above {s : State} {a a' : Activation} (h : a.Linked c lin a') :
      Linked c lin { s with callers := s.callers ++ [a] } { s with callers := s.callers ++ [a'] }

variable {image : Image} {callDepth : Nat} {n : Names} {c : CodeChunk} {lin : List Stmt}
  {a a' : Activation}

/-- A label leads to where it stands in the linear form. -/
theorem HasLinear.target (hc : HasLinear n c lin) {l : Label} {p : Nat}
    (h : lin[p]? = some (.label l)) : (targetsFrom 0 ∅ lin)[l]? = some p := by
  obtain ⟨n', hlin⟩ := hc.linearizes
  have htarget : (targetsFrom 0 ∅ lin)[l]? = some (0 + p) :=
    targetsFrom_label (hlin.nodup_labels hc.nodup hc.labels) h
  rwa [Nat.zero_add] at htarget

/-- A label that was there before leads to where it stands now. -/
theorem HasLinear.targets (hc : HasLinear n c lin) {l : Label} (hl : n.HasLabel l) :
    (targetsFrom 0 ∅ lin)[l]? = (targetsFrom 0 ∅ c.stmts)[l]?.map (linearPosition c.stmts) := by
  obtain ⟨n', hlin⟩ := hc.linearizes
  cases hold : (targetsFrom 0 ∅ c.stmts)[l]? with
  | some i =>
    have hstands := hlin.stands i
    rw [Body.label_of_target hold] at hstands
    exact hc.target hstands
  | none =>
    cases hnew : (targetsFrom 0 ∅ lin)[l]? with
    | none => rfl
    | some j =>
      have hj : lin[j]? = some (.label l) := Body.label_of_target (c := { c with stmts := lin }) hnew
      rcases hlin.label_mem (List.mem_of_getElem? hj) with hmem | hnot
      · obtain ⟨i, hi⟩ := List.getElem?_of_mem hmem
        rw [targetsFrom_label hc.nodup hi] at hold
        cases hold
      · exact absurd hl hnot

theorem mem_goals_of_exec {w w' : World} {result : Option Word} {st : Stmt} {l : Label}
    (h : exec image w a result st = .ok (w', a', some l)) : l ∈ st.goals := by
  cases done_of_exec h with
  | jump => exact List.mem_singleton_self _
  | branch =>
    simp only [Stmt.goals]
    split <;> simp

/-! ## Functions -/

theorem current?_ofChunk (c : CodeChunk) (ts : Table Temp Word) (p : Nat) (sp : Word) (level : Nat) :
    (⟨Body.ofChunk c, ts, p, sp, level⟩ : Activation).current? = c.stmts[p]? := by
  simp [Activation.current?, Body.ofChunk]

/-- Where a label leads does not depend on where the function is. -/
theorem settle_ofChunk (c : CodeChunk) (ts : Table Temp Word) (p : Nat) (sp : Word) (level : Nat)
    (w : World) (l : Label) :
    (settle image [] w ⟨Body.ofChunk c, ts, p, sp, level⟩ (some l) []).2 =
      if l = c.exit then
        match ts[c.frame.rv]? with
        | some v => .halted v { w with sp := sp }
        | none => .faulted (.undefinedTemp c.frame.rv c.name)
      else
        match (targetsFrom 0 ∅ c.stmts)[l]? with
        | some q => .running ⟨w, ⟨Body.ofChunk c, ts, q, sp, level⟩, []⟩
        | none => .faulted (.unknownLabel (image.names.textOf l) c.name) := by
  simp only [settle, Activation.temp, Activation.name, Body.ofChunk]
  split
  · cases ts[c.frame.rv]? <;> rfl
  · cases (targetsFrom 0 ∅ c.stmts)[l]? <;> rfl

namespace Activation.Linked

theorem name (h : a.Linked c lin a') : a'.name = a.name := by
  cases h
  rfl

theorem temps (h : a.Linked c lin a') : a'.temps = a.temps := by
  cases h
  rfl

variable (hc : HasLinear n c lin) (h : a.Linked c lin a')

include hc h

/-- What stands in the code stands in the linear form. -/
theorem stands {o : Option Stmt} (ho : a.current? = o) : Stands n lin a'.position o := by
  obtain ⟨n', hlin⟩ := hc.linearizes
  obtain ⟨ts, p, sp, level⟩ := h
  rw [← ho, current?_ofChunk]
  exact hlin.stands p

/-- Both functions go on, and end, at the same statement. -/
theorem settle (w : World) {target : Option Label} (hnext : target = none →
      linearPosition c.stmts (a.position + 1) = linearPosition c.stmts a.position + 1)
    (hl : ∀ l ∈ target, n.HasLabel l) :
    Meets (Machine.Linked c lin) (settle image [] w a target []).2
      (Machine.settle image [] w a' target []).2 := by
  obtain ⟨ts, p, sp, level⟩ := h
  cases target with
  | none =>
    refine .running (.alone ?_)
    have hlinked := @intro c lin ts (p + 1) sp level
    rwa [hnext rfl] at hlinked
  | some l =>
    rw [settle_ofChunk, settle_ofChunk, hc.targets (hl l rfl)]
    by_cases hexit : l = c.exit
    · rw [if_pos hexit, if_pos hexit]
      cases ts[c.frame.rv]? with
      | none | some v => exact .ended (by simp)
    · rw [if_neg hexit, if_neg hexit]
      cases (targetsFrom 0 ∅ c.stmts)[l]? with
      | none => exact .ended (by simp)
      | some q => exact .running (.alone (.intro ..))

/-- Behind a branch, the label that is the branch's own and the jump do nothing. -/
theorem falls {fall neg : Label} (hfall : ¬ n.HasLabel fall)
    (hlabel : lin[a'.position + 1]? = some (.label fall))
    (hjump : lin[a'.position + 2]? = some (.jump neg)) (w : World) :
    Silently image callDepth a.temps (Machine.settle image [] w a' (some fall) []).2
      (Machine.settle image [] w a' (some neg) []).2 := by
  obtain ⟨ts, p, sp, level⟩ := h
  have hne : fall ≠ c.exit := by
    rintro rfl
    exact hfall hc.exit
  have hat := fun q => current?_ofChunk { c with stmts := lin } ts q sp level
  rw [settle_ofChunk, if_neg hne, hc.target hlabel, settle_ofChunk]
  refine .alone ((hat _).trans hlabel) rfl rfl (.alone ((hat _).trans hjump) rfl rfl ?_)
  rw [← settle_ofChunk]
  exact .refl _

/-- The functions are at counterparts that make the same call, if any, and that do the same behind
it. -/
def Alike (image : Image) (callDepth : Nat) (c : CodeChunk) (lin : List Stmt) (a a' : Activation)
    (st : Stmt) : Prop :=
  ∃ st', a'.current? = some st' ∧ Call.inStmt st' = Call.inStmt st ∧ ∀ w result,
    Matched image callDepth (Machine.Linked c lin) a.temps (stores image w.memory a result st)
      (stores image w.memory a' result st') (lead image w a result st) (lead image w a' result st')

theorem alike_other {st : Stmt} (hcur : a.current? = some st) (hst : st.isBranch = false) :
    Alike image callDepth c lin a a' st := by
  have heval := fun m r => @eval_congr image image a a' rfl rfl h.name h.temps m r
  have hcur' : a'.current? = some st := by
    have hstands := h.stands hc hcur
    cases h
    rw [current?_ofChunk]
    cases st with
    | branch => cases hst
    | label | jump | eval | move | seq => exact hstands
  refine ⟨st, hcur', rfl, fun w result => ⟨by cases st <;> simp only [stores, heval], ?_⟩⟩
  refine ⟨_, .refl _, ?_⟩
  unfold lead
  rw [@exec_congr image image a a' rfl rfl h.name h.temps]
  cases hexec : exec image w a result st with
  | error f => exact .ended (by simp)
  | ok r =>
    obtain ⟨w', a₁, target⟩ := r
    obtain ⟨ts, _, rfl, rfl⟩ := exec_same hexec
    obtain ⟨_, p, sp, level⟩ := h
    rw [current?_ofChunk] at hcur
    refine (intro ts p sp level).settle hc _ (fun _ => linearPosition_succ hst hcur) ?_
    rintro l rfl
    exact hc.goals st (List.mem_of_getElem? hcur) l (mem_goals_of_exec hexec)

/-- A branch that does not go leads to its own label, and from there to where it went before. -/
theorem alike_branch {e : Expr} {pos neg : Label} (hcur : a.current? = some (.branch e pos neg)) :
    Alike image callDepth c lin a a' (.branch e pos neg) := by
  obtain ⟨fall, hfall, hbranch, hlabel, hjump⟩ := h.stands hc hcur
  have heval := fun m r => @eval_congr image image a a' rfl rfl h.name h.temps m r
  have hcur' : a'.current? = some (.branch e pos fall) := by
    cases h
    exact (current?_ofChunk ..).trans hbranch
  have hgoals : ∀ l ∈ [pos, neg], n.HasLabel l := by
    cases h
    rw [current?_ofChunk] at hcur
    exact hc.goals _ (List.mem_of_getElem? hcur)
  refine ⟨_, hcur', rfl, fun w result => ⟨rfl, ?_⟩⟩
  have hmeets : ∀ l ∈ [pos, neg], Meets (Machine.Linked c lin)
      (Machine.settle image [] w a (some l) []).2 (Machine.settle image [] w a' (some l) []).2 := by
    refine fun l hl => h.settle hc w (fun hnone => by cases hnone) ?_
    rintro _ ⟨⟩
    exact hgoals l hl
  simp only [lead, exec, heval]
  cases eval image w.memory a result e with
  | error f => exact ⟨_, .refl _, .ended (by simp)⟩
  | ok v =>
    by_cases hv : v ≠ 0
    · simp only [bind, Except.bind, pure, Except.pure, if_pos hv]
      exact ⟨_, .refl _, hmeets pos (by simp)⟩
    · simp only [bind, Except.bind, pure, Except.pure, if_neg hv]
      exact ⟨_, h.falls hc hfall hlabel hjump w, hmeets neg (by simp)⟩

theorem alike {st : Stmt} (hcur : a.current? = some st) : Alike image callDepth c lin a a' st := by
  cases st with
  | branch => exact h.alike_branch hc hcur
  | label | jump | eval | move | seq => exact h.alike_other hc hcur rfl

theorem current_none (hcur : a.current? = none) : a'.current? = none := by
  have hstands := h.stands hc hcur
  cases h
  exact (current?_ofChunk ..).trans hstands

/-- The lowest function goes on when its call has returned. -/
theorem returned (v : Word) (w : World) :
    Matched image callDepth (Machine.Linked c lin) a.temps (takes image v w a) (takes image v w a')
      (returned image v w w.sp [a]) (Machine.returned image v w w.sp [a']) := by
  cases hcur : a.current? with
  | none =>
    simp only [takes, Machine.returned, hcur, h.current_none hc hcur, h.name]
    exact .faulted ..
  | some st =>
    obtain ⟨st', hcur', -, hmatched⟩ := h.alike hc hcur
    simp only [takes, hcur, hcur', returned_eq_lead hcur, returned_eq_lead hcur']
    exact (hmatched { w with memory := w.memory.store w.sp v } (some v)).behind [_]

/-- A step of the lowest function, while it runs. -/
theorem advance (w : World) :
    Matched image callDepth (Machine.Linked c lin) a.temps (does image w a) (does image w a')
      (advance image callDepth ⟨w, a, []⟩) (Machine.advance image callDepth ⟨w, a', []⟩) := by
  have hlevel : a'.level = a.level := by
    cases h
    rfl
  cases hcur : a.current? with
  | none =>
    simp only [does, Machine.advance, hcur, h.current_none hc hcur, h.name]
    exact .faulted ..
  | some st =>
    obtain ⟨st', hcur', hcall', hmatched⟩ := h.alike hc hcur
    cases hcall : Call.inStmt st with
    | none =>
      rw [hcall] at hcall'
      simp only [does, hcur, hcur', hcall, hcall', advance_eq_lead hcur hcall,
        advance_eq_lead hcur' hcall']
      exact hmatched w none
    | some call =>
      rw [hcall] at hcall'
      simp only [does, Machine.advance, step, hcur, hcur', hcall, hcall',
        @evalAll_congr image image a a' rfl rfl h.name h.temps]
      cases evalAll image w.memory a call.args with
      | error f => exact .faulted ..
      | ok vs =>
        simp only
        cases storeArgs w.sp w.memory call.offsets vs with
        | error cause => exact .faulted ..
        | ok m =>
          simp only
          cases hbody : image.bodies[call.callee]? with
          | some body =>
            simp only [invoke, hbody, hlevel]
            split
            · exact .faulted ..
            · split
              · exact ⟨rfl, _, .refl _, .running (.above (s := ⟨_, _, []⟩) h)⟩
              · exact .faulted ..
          | none =>
            simp only
            cases hrun : builtin { w with memory := m } (image.names.textOf call.callee) with
            | error f =>
              simp only [invoke, hbody, hrun]
              exact .faulted ..
            | ok r =>
              rw [invoke_provided (s := ⟨w, a, []⟩) hcur hbody hrun,
                invoke_provided (s := ⟨w, a', []⟩) hcur' hbody hrun]
              exact .behind _ (.behind [_] (h.returned hc r.2 r.1))

end Activation.Linked

/-- Functions with the code of a chunk and with its linear form run alike. -/
theorem isSimulation_linked (hc : HasLinear n c lin) :
    IsSimulation image callDepth (Linked c lin) where
  temps h := by
    cases h with
    | alone h => exact h.temps
    | above h => simpa [State.lowest] using h.temps
  matched h := by
    cases h with
    | alone h =>
      rw [State.events_alone, State.events_alone]
      exact h.advance hc _
    | @above s a a' h =>
      have hlowest : ({ s with callers := s.callers ++ [a] } : State).lowest.temps = a.temps := by
        simp [State.lowest]
      rw [State.events_over, State.events_over, advance_over, advance_over, hlowest]
      cases advance image callDepth s with
      | running t => exact ⟨by simp, _, .refl _, .running (.above h)⟩
      | halted v w =>
        simp only [resumes, List.append_nil]
        exact .behind _ (h.returned hc v w)
      | faulted f =>
        rw [resumes_faulted, resumes_faulted]
        exact .faulted ..

/-- A function runs the same with its code in linear form, if the labels of its code were handed out
before, each for one place: it stores and calls the same in the same order, and it ends in the same
way or goes on for ever.  What it stores is all that happens to memory, and in the linear form a
branch is followed by the label that it goes to on zero. -/
theorem linearize_sameRuns (image : Image) (callDepth : Nat) (c : CodeChunk) (s : Session)
    (hnodup : (Stmt.listLabels c.stmts).Nodup)
    (hlabels : ∀ l ∈ Stmt.listLabels c.stmts, s.names.HasLabel l)
    (hgoals : ∀ st ∈ c.stmts, ∀ l ∈ st.goals, s.names.HasLabel l) (hexit : s.names.HasLabel c.exit)
    (w : World) (temps : Table Temp Word) (savedSp : Word) (level : Nat) :
    ∃ lin s', linearize c.stmts s = .ok lin s' ∧
      SameRuns image callDepth ⟨w, ⟨Body.ofChunk c, temps, 0, savedSp, level⟩, []⟩
        ⟨w, ⟨Body.ofChunk { c with stmts := lin }, temps, 0, savedSp, level⟩, []⟩ ∧
      (∀ n (s : State), Leaves s.world.memory (eventsOf image callDepth n (.running s))
        (after image callDepth n (.running s))) ∧
      ∀ i e pos neg, lin[i]? = some (.branch e pos neg) → lin[i + 1]? = some (.label neg) := by
  obtain ⟨lin, s', hok⟩ := exists_linearize c.stmts s
  have hlin := linearizes hok
  refine ⟨lin, s', hok, ?_, leaves_eventsOf, fun i e pos neg hi => (hlin.falls hi).1⟩
  have hlinked := @Activation.Linked.intro c lin temps 0 savedSp level
  rw [linearPosition_zero] at hlinked
  exact (isSimulation_linked ⟨⟨_, hlin⟩, hnodup, hlabels, hgoals, hexit⟩).sameRuns (.alone hlinked) rfl

/-- Goes round once, and then out at a branch that does not go. -/
def falling : CodeChunk where
  name := "_falling"
  frame := ⟨⟨0⟩, 0, 0, 0, 16, ⟨0⟩, ⟨1⟩⟩
  entry := ⟨1⟩
  exit := ⟨2⟩
  stmts := [.label ⟨1⟩, .move (.temp ⟨1⟩) (.const 0), .branch (.temp ⟨1⟩) ⟨1⟩ ⟨2⟩]

theorem linearize_sameRuns_falling :
    (Stmt.listLabels falling.stmts).Nodup ∧
      SameRuns ⟨{}, ∅, ∅⟩ 0 ⟨⟨{}, 0, 0, [], []⟩, ⟨Body.ofChunk falling, ∅, 0, 0, 1⟩, []⟩
        ⟨⟨{}, 0, 0, [], []⟩, ⟨Body.ofChunk { falling with stmts := [.label ⟨1⟩,
          .move (.temp ⟨1⟩) (.const 0), .branch (.temp ⟨1⟩) ⟨1⟩ ⟨3⟩, .label ⟨3⟩, .jump ⟨2⟩] }, ∅, 0, 0,
          1⟩, []⟩ := by
  have hnodup : (Stmt.listLabels falling.stmts).Nodup := by decide
  obtain ⟨lin, s', hok, hsame, -⟩ := linearize_sameRuns ⟨{}, ∅, ∅⟩ 0 falling
    { names := { labels := #[none, none, none] } } hnodup (by decide) (by decide) (by decide)
    ⟨{}, 0, 0, [], []⟩ ∅ 0 1
  cases hok
  exact ⟨hnodup, hsame⟩

end Machine

end MmixBackend
