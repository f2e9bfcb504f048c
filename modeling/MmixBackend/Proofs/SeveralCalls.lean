import MmixBackend.Proofs.Data
import MmixBackend.Proofs.StackDiscipline

/-!
# Statements with several calls

A statement makes one call, the first that is not in an argument.  When it has returned, the
statement is done with the result in the place of every call that is not in an argument, so that a
second one is passed over.  A call in the arguments of the first is found out to be one too many,
since they are evaluated while there is no result.

Main statement: of a statement with several calls, an execution to the end makes the first call and
no other.  There is such an execution, in a run of some program, exactly if the statement has a form
that the machine runs.
-/

namespace MmixBackend

/-! ## The calls of a statement -/

namespace Ir

open Machine (Call)

mutual

/-- The calls in an expression in the order of evaluation; those in statements are left out. -/
def Expr.calls : Expr → List Call
  | .const _ | .name _ | .temp _ | .after .. => []
  | .mem e | .unary _ e => e.calls
  | .binary _ l r => l.calls ++ r.calls
  | .call callee offsets args => Expr.listCalls args ++ [⟨callee, offsets, args⟩]

def Expr.listCalls : List Expr → List Call
  | [] => []
  | e :: es => e.calls ++ Expr.listCalls es

end

mutual

/-- The calls in a statement; in a move, those in the source come first. -/
def Stmt.calls : Stmt → List Call
  | .move dst src => src.calls ++ dst.calls
  | .eval e | .branch e _ _ => e.calls
  | .jump _ | .label _ => []
  | .seq ss => Stmt.listCalls ss

def Stmt.listCalls : List Stmt → List Call
  | [] => []
  | s :: ss => s.calls ++ Stmt.listCalls ss

end

/-- The calls in an expression that are not in an argument. -/
def Expr.outer : Expr → List Call
  | .const _ | .name _ | .temp _ | .after .. => []
  | .mem e | .unary _ e => e.outer
  | .binary _ l r => l.outer ++ r.outer
  | .call callee offsets args => [⟨callee, offsets, args⟩]

/-- The calls in a statement that are not in an argument. -/
def Stmt.outer : Stmt → List Call
  | .move dst src => src.outer ++ dst.outer
  | .eval e | .branch e _ _ => e.outer
  | .jump _ | .label _ | .seq _ => []

/-- The machine can find the value: outside arguments there is no statement, and no call while there
is no result to put in its place. -/
def Expr.isDirect (resumed : Bool) : Expr → Bool
  | .const _ | .name _ | .temp _ => true
  | .mem e | .unary _ e => e.isDirect resumed
  | .binary _ l r => l.isDirect resumed && r.isDirect resumed
  | .call .. => resumed
  | .after .. => false

/-- The machine can do the statement once its call, if it makes one, has returned. -/
def Stmt.isDirect : Stmt → Bool
  | .jump _ | .label _ => true
  | .eval e | .branch e _ _ | .move (.temp _) e => e.isDirect true
  | .move (.mem addr) src => src.isDirect true && addr.isDirect true
  | .move .. | .seq _ => false

/-- The machine can do the statement to its end: it can make the first call, and go on with the
result. -/
def Stmt.isRunnable (st : Stmt) : Bool :=
  st.isDirect && st.outer.head?.all fun call => call.args.all (Expr.isDirect false)

/-- The expression with a value in the place of every call that is not in an argument. -/
def Expr.fill (v : Word) : Expr → Expr
  | .mem e => .mem (e.fill v)
  | .unary op e => .unary op (e.fill v)
  | .binary op l r => .binary op (l.fill v) (r.fill v)
  | .call .. => .const v
  | e => e

/-- The statement with a value in the place of every call that is not in an argument. -/
def Stmt.fill (v : Word) : Stmt → Stmt
  | .move dst src => .move (dst.fill v) (src.fill v)
  | .eval e => .eval (e.fill v)
  | .branch e pos neg => .branch (e.fill v) pos neg
  | st => st

mutual

/-- The temporaries and the labels of data that an expression reads, statements left out. -/
def Expr.reads : Expr → List (Temp ⊕ Label)
  | .const _ | .after .. => []
  | .name l => [.inr l]
  | .temp t => [.inl t]
  | .mem e | .unary _ e => e.reads
  | .binary _ l r => l.reads ++ r.reads
  | .call _ _ args => Expr.listReads args

def Expr.listReads : List Expr → List (Temp ⊕ Label)
  | [] => []
  | e :: es => e.reads ++ Expr.listReads es

end

/-- The temporaries and the labels of data that a statement reads. -/
def Stmt.reads : Stmt → List (Temp ⊕ Label)
  | .move dst src => src.reads ++ dst.reads
  | .eval e | .branch e _ _ => e.reads
  | .jump _ | .label _ | .seq _ => []

/-- A call in an expression is one outside arguments, or it is in an argument of one. -/
theorem Expr.calls_eq : ∀ e : Expr,
    e.calls = e.outer.flatMap fun call => Expr.listCalls call.args ++ [call]
  | .const _ | .name _ | .temp _ | .after .. => rfl
  | .mem e | .unary _ e => e.calls_eq
  | .binary _ l r => by rw [calls, outer, List.flatMap_append, ← l.calls_eq, ← r.calls_eq]
  | .call .. => by rw [calls, outer, List.flatMap_singleton]

theorem Expr.listCalls_of_isDirect : ∀ {es : List Expr}, es.all (Expr.isDirect false) = true →
    Expr.listCalls es = []
  | [], _ => rfl
  | e :: es, h => by
    rw [List.all_cons, Bool.and_eq_true] at h
    have hnone : e.outer = [] := go h.1
    rw [listCalls, e.calls_eq, hnone, listCalls_of_isDirect h.2]
    rfl
where
  go : ∀ {e : Expr}, e.isDirect false = true → e.outer = []
    | .const _, _ | .name _, _ | .temp _, _ => rfl
    | .mem e, h | .unary _ e, h => go (e := e) h
    | .binary _ l r, h => by
      rw [isDirect, Bool.and_eq_true] at h
      rw [outer, go h.1, go h.2]
      rfl

/-- With a result to put in the place of calls the machine can do all that it can without. -/
theorem Expr.isDirect_resumed {resumed : Bool} : ∀ {e : Expr}, e.isDirect resumed = true →
    e.isDirect true = true
  | .const _, _ | .name _, _ | .temp _, _ | .call .., _ => rfl
  | .mem e, h | .unary _ e, h => isDirect_resumed (e := e) h
  | .binary _ l r, h => by
    rw [isDirect, Bool.and_eq_true] at h
    rw [isDirect, isDirect_resumed h.1, isDirect_resumed h.2]
    rfl

theorem Expr.mem_reads {call : Call} {x : Temp ⊕ Label} (hx : x ∈ Expr.listReads call.args) :
    ∀ {e : Expr}, call ∈ e.outer → x ∈ e.reads
  | .mem e, h | .unary _ e, h => mem_reads hx (e := e) h
  | .binary _ l r, h => by
    rw [reads, List.mem_append]
    exact (List.mem_append.mp h).imp (mem_reads hx) (mem_reads hx)
  | .call .., h => by
    cases List.mem_singleton.mp h
    exact hx

theorem Stmt.mem_reads {call : Call} {x : Temp ⊕ Label} (hx : x ∈ Expr.listReads call.args) :
    ∀ {st : Stmt}, call ∈ st.outer → x ∈ st.reads
  | .move dst src, h => by
    rw [reads, List.mem_append]
    exact (List.mem_append.mp h).imp (Expr.mem_reads hx) (Expr.mem_reads hx)
  | .eval e, h | .branch e _ _, h => Expr.mem_reads hx (e := e) h

/-- A statement of several calls that the machine runs has several that are not in arguments. -/
theorem Stmt.two_le_outer {st : Stmt} (h : 2 ≤ st.calls.length) (hrun : st.isRunnable = true) :
    2 ≤ st.outer.length := by
  rw [isRunnable, Bool.and_eq_true] at hrun
  have hcalls : st.calls = st.outer.flatMap fun call => Expr.listCalls call.args ++ [call] := by
    cases st with
    | move dst src => rw [calls, outer, List.flatMap_append, ← Expr.calls_eq, ← Expr.calls_eq]
    | eval e | branch e => exact e.calls_eq
    | jump | label => rfl
    | seq => cases hrun.1
  match houter : st.outer with
  | [] =>
    rw [hcalls, houter] at h
    cases h
  | [call] =>
    rw [houter] at hrun
    rw [hcalls, houter, List.flatMap_singleton, Expr.listCalls_of_isDirect hrun.2] at h
    exact absurd h (Nat.not_succ_le_self 1)
  | _ :: _ :: _ => exact Nat.le_add_left 2 _

end Ir

namespace Machine

/-- The call that is made is the first that is not in an argument. -/
theorem Call.inExpr_eq : ∀ e : Ir.Expr, Call.inExpr e = e.outer.head?
  | .const _ | .name _ | .temp _ | .after .. | .call .. => rfl
  | .mem e | .unary _ e => Call.inExpr_eq e
  | .binary _ l r => by
    rw [Call.inExpr, Ir.Expr.outer, List.head?_append, inExpr_eq l, inExpr_eq r,
      Option.orElse_eq_orElse, Option.orElse_eq_or]

theorem Call.inStmt_eq (st : Ir.Stmt) : Call.inStmt st = st.outer.head? := by
  cases st with
  | move dst src =>
    rw [Call.inStmt, Ir.Stmt.outer, List.head?_append, inExpr_eq src, inExpr_eq dst,
      Option.orElse_eq_orElse, Option.orElse_eq_or]
  | eval e | branch e => exact Call.inExpr_eq e
  | jump | label | seq => rfl

/-! ## Evaluation -/

section Evaluation

variable {image : Image} {m : Memory} {w : World} {a : Activation} {result : Option Word}

/-- What is read has a value. -/
def Supplies (image : Image) (a : Activation) : Temp ⊕ Label → Prop
  | .inl t => ∃ v, a.temps[t]? = some v
  | .inr l => ∃ addr, image.data[l]? = some addr

/-- One result stands for every call. -/
theorem eval_fill (v : Word) : ∀ e : Ir.Expr,
    eval image m a none (e.fill v) = eval image m a (some v) e
  | .const _ | .name _ | .temp _ | .after .. | .call .. => rfl
  | .mem e | .unary _ e => by rw [Ir.Expr.fill, eval, eval, eval_fill v e]
  | .binary _ l r => by rw [Ir.Expr.fill, eval, eval, eval_fill v l, eval_fill v r]

theorem exec_fill (v : Word) : ∀ st : Ir.Stmt,
    exec image w a none (st.fill v) = exec image w a (some v) st
  | .jump _ | .label _ | .seq _ => rfl
  | .eval e | .branch e _ _ => by rw [Ir.Stmt.fill, exec, exec, eval_fill v e]
  | .move dst src => by
    rw [Ir.Stmt.fill, exec, exec, eval_fill v src]
    cases dst with
    | mem e => simp only [Ir.Expr.fill, eval_fill v e]
    | const | name | temp | binary | unary | call | after => rfl

theorem isDirect_of_eval : ∀ {e : Ir.Expr} {v : Word},
    eval image m a result e = .ok v → e.isDirect result.isSome = true
  | .const _, _, _ | .name _, _, _ | .temp _, _, _ => rfl
  | .mem e, _, h | .unary _ e, _, h => by
    rw [eval] at h
    obtain ⟨_, he, -⟩ := bind_eq_ok h
    exact isDirect_of_eval (e := e) he
  | .binary _ l r, _, h => by
    rw [eval] at h
    obtain ⟨_, hl, h⟩ := bind_eq_ok h
    obtain ⟨_, hr, -⟩ := bind_eq_ok h
    rw [Ir.Expr.isDirect, isDirect_of_eval hl, isDirect_of_eval hr]
    rfl
  | .call .., _, h => by
    cases result with
    | some v => rfl
    | none => cases h
  | .after .., _, h => by cases h

theorem isDirect_of_evalAll : ∀ {es : List Ir.Expr} {vs : List Word},
    evalAll image m a es = .ok vs → es.all (Ir.Expr.isDirect false) = true
  | [], _, _ => rfl
  | e :: es, _, h => by
    rw [evalAll] at h
    obtain ⟨_, he, h⟩ := bind_eq_ok h
    obtain ⟨_, hes, -⟩ := bind_eq_ok h
    rw [List.all_cons, isDirect_of_evalAll hes, Bool.and_true]
    exact isDirect_of_eval he

variable (result) in
/-- An expression whose reads have values has a value too, or there is a call in it and no result. -/
theorem eval_supplied : ∀ {e : Ir.Expr}, (∀ x ∈ e.reads, Supplies image a x) →
    e.isDirect true = true →
      (∃ v, eval image m a result e = .ok v) ∨
        e.isDirect result.isSome = false ∧
          eval image m a result e = .error (.malformed a.name .secondCall)
  | .const v, _, _ => Or.inl ⟨v, rfl⟩
  | .name l, hs, _ => by
    obtain ⟨addr, haddr⟩ := hs _ (List.mem_singleton.mpr rfl)
    exact Or.inl ⟨addr, by rw [eval, haddr]⟩
  | .temp t, hs, _ => by
    obtain ⟨v, hv⟩ := hs _ (List.mem_singleton.mpr rfl)
    exact Or.inl ⟨v, by rw [eval, Activation.temp, hv]⟩
  | .mem e, hs, h | .unary _ e, hs, h => by
    rw [eval, Ir.Expr.isDirect]
    rcases eval_supplied (e := e) hs h with ⟨v, hv⟩ | ⟨hcall, herror⟩
    · rw [hv]
      exact Or.inl ⟨_, rfl⟩
    · rw [herror]
      exact Or.inr ⟨hcall, rfl⟩
  | .binary _ l r, hs, h => by
    rw [Ir.Expr.reads, List.forall_mem_append] at hs
    rw [Ir.Expr.isDirect, Bool.and_eq_true] at h
    rw [eval, Ir.Expr.isDirect]
    rcases eval_supplied hs.1 h.1 with ⟨x, hx⟩ | ⟨hcall, herror⟩
    · rw [hx]
      rcases eval_supplied hs.2 h.2 with ⟨y, hy⟩ | ⟨hcall, herror⟩
      · rw [hy]
        exact Or.inl ⟨_, rfl⟩
      · rw [herror, hcall, Bool.and_false]
        exact Or.inr ⟨rfl, rfl⟩
    · rw [herror, hcall, Bool.false_and]
      exact Or.inr ⟨rfl, rfl⟩
  | .call .., _, _ => by
    cases result with
    | some v => exact Or.inl ⟨v, rfl⟩
    | none => exact Or.inr ⟨rfl, rfl⟩

theorem evalAll_supplied : ∀ {es : List Ir.Expr}, (∀ x ∈ Ir.Expr.listReads es, Supplies image a x) →
    es.all (Ir.Expr.isDirect true) = true →
      (∃ vs, evalAll image m a es = .ok vs) ∨
        es.all (Ir.Expr.isDirect false) = false ∧
          evalAll image m a es = .error (.malformed a.name .secondCall)
  | [], _, _ => Or.inl ⟨[], rfl⟩
  | e :: es, hs, h => by
    rw [Ir.Expr.listReads, List.forall_mem_append] at hs
    rw [List.all_cons, Bool.and_eq_true] at h
    rw [evalAll, List.all_cons]
    rcases eval_supplied none hs.1 h.1 with ⟨v, hv⟩ | ⟨hcall, herror⟩
    · rw [hv]
      rcases evalAll_supplied hs.2 h.2 with ⟨vs, hvs⟩ | ⟨hcall, herror⟩
      · rw [hvs]
        exact Or.inl ⟨_, rfl⟩
      · rw [herror, hcall, Bool.and_false]
        exact Or.inr ⟨rfl, rfl⟩
    · rw [herror, show e.isDirect false = false from hcall, Bool.false_and]
      exact Or.inr ⟨rfl, rfl⟩

theorem isDirect_of_exec {st : Ir.Stmt} {r : World × Activation × Option Label}
    (h : exec image w a result st = .ok r) : st.isDirect = true := by
  -- with a result or without, nothing but calls is let through
  have hmono : ∀ {e : Ir.Expr} {v : Word}, eval image w.memory a result e = .ok v →
      e.isDirect true = true := fun h => Ir.Expr.isDirect_resumed (isDirect_of_eval h)
  obtain ⟨w', a', target⟩ := r
  cases done_of_exec h with
  | jump | label => rfl
  | branch he | eval he | set he => exact hmono he
  | store hsrc haddr =>
    rw [Ir.Stmt.isDirect, hmono hsrc, hmono haddr]
    rfl

theorem exec_supplied {st : Ir.Stmt} (hs : ∀ x ∈ st.reads, Supplies image a x)
    (h : st.isDirect = true) (v : Word) : ∃ r, exec image w a (some v) st = .ok r := by
  have heval : ∀ {e : Ir.Expr}, (∀ x ∈ e.reads, Supplies image a x) → e.isDirect true = true →
      ∃ x, eval image w.memory a (some v) e = .ok x := by
    intro e hs h
    rcases eval_supplied (some v) hs h with hv | ⟨hcall, -⟩
    · exact hv
    · exact absurd h (by rw [show e.isDirect true = false from hcall]; decide)
  cases st with
  | jump | label => exact ⟨_, rfl⟩
  | seq => cases h
  | eval e | branch e =>
    obtain ⟨x, hx⟩ := heval (e := e) hs h
    rw [exec, hx]
    exact ⟨_, rfl⟩
  | move dst src =>
    rw [Ir.Stmt.reads, List.forall_mem_append] at hs
    cases dst with
    | temp =>
      obtain ⟨x, hx⟩ := heval hs.1 h
      rw [exec, hx]
      exact ⟨_, rfl⟩
    | mem addr =>
      rw [Ir.Stmt.isDirect, Bool.and_eq_true] at h
      obtain ⟨x, hx⟩ := heval hs.1 h.1
      obtain ⟨y, hy⟩ := heval (e := addr) hs.2 h.2
      rw [exec, hx]
      exact ⟨_, by simp only [bind, Except.bind, hy]; rfl⟩
    | const | name | binary | unary | call | after => cases h

end Evaluation

/-! ## Executions -/

/-- The call that the function on top has to make before it can go on. -/
def Moment.call? (m : Moment) : Option Call :=
  match m.stack with
  | ⟨a, none⟩ :: _ => a.current?.bind Call.inStmt
  | _ => none

/-- From one moment to another with the calls that the function at a height of the stack makes,
while it does a statement; what it calls may do anything. -/
inductive Moment.Calls (image : Image) (callDepth : Nat) (entry : String) (height : Nat) :
    Moment → List Call → Moment → Prop where
  | refl (m : Moment) : Calls image callDepth entry height m [] m
  | own {m m₁ m' : Moment} {call : Call} {calls : List Call} (hheight : m.stack.length = height)
      (hcall : m.call? = some call) (hmove : m.move image callDepth entry = .goes m₁)
      (h : Calls image callDepth entry height m₁ calls m') :
      Calls image callDepth entry height m (call :: calls) m'
  | above {m m₁ m' : Moment} {calls : List Call} (hheight : height < m.stack.length)
      (hmove : m.move image callDepth entry = .goes m₁)
      (h : Calls image callDepth entry height m₁ calls m') :
      Calls image callDepth entry height m calls m'

/-- The function on top does its statement to the end.  In the last moment it has made its calls and
does what is left of the statement. -/
structure Moment.Executes (image : Image) (callDepth : Nat) (entry : String) (m : Moment)
    (st : Ir.Stmt) (calls : List Call) (last : Moment) : Prop where
  start : ∃ a rest, m.stack = Task.idle a :: rest ∧ a.current? = some st
  calls : m.Calls image callDepth entry m.stack.length calls last
  height : last.stack.length = m.stack.length
  ready : last.call? = none
  ends : ∀ t ∈ last.stack.head?,
    ∃ r, exec image last.world t.activation t.result st = .ok r

section Executions

variable {image : Image} {callDepth : Nat} {entry : String} {m last : Moment} {st : Ir.Stmt}
  {calls : List Call} {a : Activation} {rest : List Task}

/-- Once its call is made, a function makes no other until it has the result. -/
theorem Moment.Calls.waiting {height : Nat}
    (h : m.Calls image callDepth entry height calls last) (hlast : last.stack.length = height)
    (hheight : (Task.idle a :: rest).length = height)
    (hm : (∃ v, m.stack = ⟨a, some v⟩ :: rest) ∨
      Task.idle a :: rest <:+ m.stack ∧ height < m.stack.length) :
    calls = [] ∧ ∃ v, last.stack = ⟨a, some v⟩ :: rest := by
  induction h with
  | refl m =>
    rcases hm with hm | ⟨-, hlt⟩
    · exact ⟨rfl, hm⟩
    · exact absurd hlast (Nat.ne_of_gt hlt)
  | own hown hcall =>
    rcases hm with ⟨v, hv⟩ | ⟨-, hlt⟩
    · rw [call?, hv] at hcall
      cases hcall
    · exact absurd hown (Nat.ne_of_gt hlt)
  | @above m m₁ _ _ habove hmove _ ih =>
    rcases hm with ⟨v, hv⟩ | ⟨hbase, hlt⟩
    · rw [hv] at habove
      exact absurd hheight (Nat.ne_of_gt habove)
    · refine ih hlast ?_
      by_cases hlt' : height < m₁.stack.length
      · subst hheight
        exact Or.inr ⟨(moves_of_move hmove).suffix hbase hlt hlt', hlt'⟩
      · -- what it called returns
        subst hheight
        obtain ⟨_, c, cs, v, -, hbase, hback, -⟩ :=
          (moves_of_move hmove).back hbase hlt (Nat.le_of_not_lt hlt')
        cases hbase
        exact Or.inl ⟨v, hback⟩

/-- A call that goes through is answered at once, or a function is entered for it. -/
theorem Moment.stack_of_invoke {w : World} {callee : Label}
    (h : Moment.invoke image callDepth w (Task.idle a) rest callee = .goes m) :
    (∃ v, m.stack = ⟨a, some v⟩ :: rest) ∨ ∃ b, m.stack = Task.idle b :: Task.idle a :: rest := by
  unfold invoke at h
  split at h
  · split at h
    · cases h
    · split at h
      · cases h
        exact Or.inr ⟨_, rfl⟩
      · cases h
  · split at h
    · cases h
    · cases h
      exact Or.inl ⟨_, rfl⟩

/-- To do a statement to its end, a function makes its first call and no other, if there is one. -/
theorem Moment.Executes.once (h : m.Executes image callDepth entry st calls last) :
    calls = st.outer.take 1 ∧ st.isRunnable = true ∧
      ∃ a rest result, m.stack = Task.idle a :: rest ∧ last.stack = ⟨a, result⟩ :: rest ∧
        (result = none ↔ st.outer = []) := by
  obtain ⟨⟨a, rest, hstack, hcur⟩, hcalls, hheight, hready, hends⟩ := h
  have hcall? : m.call? = st.outer.head? := by
    rw [call?, hstack]
    simp only [Task.idle, hcur, Option.bind_some, Call.inStmt_eq]
  cases hcalls with
  | refl =>
    have hnone : st.outer = [] := List.head?_eq_none_iff.mp (hcall?.symm.trans hready)
    obtain ⟨r, hr⟩ := hends (Task.idle a) (by rw [hstack]; rfl)
    refine ⟨by rw [hnone]; rfl, ?_, a, rest, none, hstack, hstack, by simp [hnone]⟩
    rw [Ir.Stmt.isRunnable, isDirect_of_exec hr, hnone]
    rfl
  | above habove => exact absurd habove (Nat.lt_irrefl _)
  | @own _ m₁ _ call cs _ hcall hmove hrest =>
    obtain ⟨others, houter⟩ : ∃ others, st.outer = call :: others := by
      rw [hcall?, List.head?_eq_some_iff] at hcall
      exact hcall
    have hin : Call.inStmt st = some call := by rw [Call.inStmt_eq, houter]; rfl
    simp only [move, hstack, Task.idle, hcur, hin] at hmove
    split at hmove
    · cases hmove
    · next vs hvs =>
      split at hmove
      · cases hmove
      · have hnow := stack_of_invoke hmove
        obtain ⟨rfl, v, hv⟩ := hrest.waiting hheight (by rw [hstack]) <| hnow.imp_right <| by
          rintro ⟨b, hb⟩
          rw [hb, hstack]
          exact ⟨List.suffix_cons _ _, Nat.lt_succ_self _⟩
        obtain ⟨r, hr⟩ := hends ⟨a, some v⟩ (by rw [hv]; rfl)
        refine ⟨by rw [houter]; rfl, ?_, a, rest, some v, hstack, hv, by simp [houter]⟩
        rw [Ir.Stmt.isRunnable, isDirect_of_exec hr, houter]
        exact isDirect_of_evalAll hvs

/-- Where the arguments of the first call hold a call and nothing else is amiss, the machine rejects
the statement before it makes a call. -/
theorem Moment.rejected {call : Call} (hstack : m.stack = Task.idle a :: rest)
    (hcur : a.current? = some st) (hcall : st.outer.head? = some call)
    (hs : ∀ x ∈ st.reads, Supplies image a x)
    (hdirect : call.args.all (Ir.Expr.isDirect true) = true)
    (hin : call.args.all (Ir.Expr.isDirect false) = false) :
    m.move image callDepth entry = .faulted (.malformed a.name .secondCall) := by
  obtain ⟨others, houter⟩ := List.head?_eq_some_iff.mp hcall
  have hmem : call ∈ st.outer := houter ▸ List.mem_cons_self
  simp only [move, hstack, Task.idle, hcur, Call.inStmt_eq, hcall]
  rcases evalAll_supplied (m := m.world.memory) (fun x hx => hs x (Ir.Stmt.mem_reads hx hmem))
    hdirect with ⟨vs, hvs⟩ | ⟨-, herror⟩
  · exact absurd (isDirect_of_evalAll hvs) (by rw [hin]; decide)
  · rw [herror]

end Executions

/-! ## A run for every statement -/

def clear (t : Temp) : Ir.Stmt := .move (.temp t) (.const 0)

abbrev cleared (ts : List Temp) (temps : Table Temp Word) : Table Temp Word :=
  ts.foldl (fun temps t => temps.insert t 0) temps

/-- A function that clears the temporaries a statement reads and comes to the statement.  Its label
is the one after that of the callee. -/
def stagingCode (st : Ir.Stmt) (callee : Label) : CodeChunk where
  name := "main"
  frame := ⟨⟨callee.index + 1⟩, 0, 0, 0, stackStart, ⟨0⟩, ⟨0⟩⟩
  stmts := (st.reads.filterMap Sum.getLeft?).map clear ++ [st]
  entry := ⟨0⟩
  exit := ⟨0⟩

/-- The function, and empty data for the labels that the statement reads. -/
def staging (st : Ir.Stmt) (callee : Label) : Chunks where
  code := [stagingCode st callee]
  data := (st.reads.filterMap Sum.getRight?).map fun l => { label := l, size := 0 }

/-- The names of `staging`: the callee is a function that the machine provides. -/
def stagingNames (callee : Label) : Names where
  labels := (List.replicate callee.index none ++ [some "_getc", some "_main"]).toArray

section Staging

theorem reaches_cleared {image : Image} {callDepth : Nat} {entry : String} {w : World}
    {ts : List Temp} {ss : List Ir.Stmt} :
    ∀ (before : List Ir.Stmt) (a : Activation),
      a.body.code = (before ++ ts.map clear ++ ss).toArray → a.position = before.length →
        Moment.Reaches image callDepth entry ⟨w, [Task.idle a]⟩
          ⟨w, [Task.idle { a with
            temps := cleared ts a.temps, position := before.length + ts.length }]⟩ := by
  induction ts with
  | nil =>
    intro before a _ hposition
    rw [List.length_nil, Nat.add_zero, ← hposition]
    exact .refl
  | cons t ts ih =>
    intro before a hcode hposition
    have hcur : a.current? = some (clear t) := by
      rw [Activation.current?, hcode, hposition]
      simp
    have hmove : Moment.move image callDepth entry ⟨w, [Task.idle a]⟩ = .goes ⟨w, [Task.idle
        { a with temps := a.temps.insert t 0, position := a.position + 1 }]⟩ := by
      simp only [Moment.move, Task.idle, hcur]
      rfl
    have hrest := ih (before ++ [clear t])
      { a with temps := a.temps.insert t 0, position := a.position + 1 } (by rw [hcode]; simp)
      (by rw [hposition, List.length_append, List.length_singleton])
    rw [List.length_append, List.length_singleton, Nat.add_assoc, Nat.add_comm 1] at hrest
    exact .head hmove hrest

theorem exists_cleared {t : Temp} : ∀ (ts : List Temp) {temps : Table Temp Word},
    t ∈ ts ∨ (∃ v, temps[t]? = some v) → ∃ v, (cleared ts temps)[t]? = some v
  | [], _, h => h.resolve_left (List.not_mem_nil)
  | t' :: ts, temps, h => by
    refine exists_cleared ts ?_
    by_cases ht : t' = t
    · exact Or.inr ⟨0, ht ▸ Std.ExtTreeMap.getElem?_insert_self⟩
    · exact h.imp (fun h => (List.mem_cons.mp h).resolve_left (Ne.symm ht)) fun ⟨v, hv⟩ =>
        ⟨v, (Table.getElem?_insert_of_ne ht).trans hv⟩

theorem placeData_empty {m : Memory} {addr : Word} : ∀ (ls : List Label) (places : Table Label Word),
    ∃ places', placeData addr places m (ls.map fun l => { label := l, size := 0 }) =
      .ok (places', m)
  | [], places => ⟨places, rfl⟩
  | l :: ls, places => by
    obtain ⟨places', h⟩ := placeData_empty ls (places.insert l addr)
    refine ⟨places', ?_⟩
    have hadd : Word.checkedAdd addr 0 = .ok addr := by
      rw [Word.checkedAdd_eq, Word.exact_eq_ok_iff]
      simp
    rw [List.map_cons, placeData]
    simp only [bind, Except.bind, hadd]
    exact h

theorem storeArgs_zero : ∀ (offsets vs : List Word) (m : Memory),
    ∃ m', storeArgs 0 m offsets vs = .ok m'
  | offset :: offsets, v :: vs, m => by
    have hadd : Word.checkedAdd 0 offset = .ok offset := by
      rw [Word.checkedAdd_eq, Word.exact_eq_ok_iff]
      simp
    rw [storeArgs, hadd]
    exact storeArgs_zero offsets vs _
  | [], [], m | [], _ :: _, m | _ :: _, [], m => ⟨m, rfl⟩

/-- A run comes to the statement, with a value for all that it reads and with SP at zero. -/
theorem exists_staged (st : Ir.Stmt) (callee : Label) (callDepth : Nat) :
    ∃ image first a w,
      initial (stagingNames callee) (staging st callee) "_main" [] = .ok (image, first) ∧
      first.moment.Reaches image callDepth "_main" ⟨w, [Task.idle a]⟩ ∧
      a.current? = some st ∧ (∀ x ∈ st.reads, Supplies image a x) ∧ w.sp = 0 ∧ w.input = [] ∧
      image.bodies[callee]? = none ∧ image.names.textOf callee = "_getc" := by
  obtain ⟨data, hdata⟩ : ∃ data, placeData dataStart ∅ {} (staging st callee).data =
    .ok (data, {}) := placeData_empty _ _
  have hlookup : (stagingNames callee).lookup "_main" = some ⟨callee.index + 1⟩ := by
    rw [Names.lookup, stagingNames]
    simp [List.findIdx?_append, List.findIdx?_replicate, List.findIdx?_cons, Nat.add_comm]
  have hbodies : loadedBodies (staging st callee) =
      (∅ : Table Label Body).insert ⟨callee.index + 1⟩ (Body.ofChunk (stagingCode st callee)) := rfl
  have hsub : Word.checkedSub stackStart (stagingCode st callee).frame.size = .ok 0 := by
    rw [Word.checkedSub_eq, Word.exact_eq_ok_iff, stagingCode, Int.sub_self, Int64.toInt_zero]
  have hinit := initial_eq (stagingNames callee) (staging st callee) "_main" []
  rw [hdata, hlookup, hbodies] at hinit
  simp only [Option.bind_eq_bind, Option.bind_some, Std.ExtTreeMap.getElem?_insert_self,
    Body.ofChunk, hsub] at hinit
  refine ⟨_, _, _, _, hinit, reaches_cleared [] _ rfl rfl, ?_, ?_, rfl, rfl, ?_, ?_⟩
  · simp [Activation.current?, stagingCode, entered]
  · rintro (t | l) hx
    · exact exists_cleared _ (Or.inl (List.mem_filterMap.mpr ⟨_, hx, rfl⟩))
    · exact exists_of_placeData hdata (Or.inr ⟨_, List.mem_map.mpr
        ⟨l, List.mem_filterMap.mpr ⟨_, hx, rfl⟩, rfl⟩, rfl⟩)
  · have hne : (⟨callee.index + 1⟩ : Label) ≠ callee := fun h =>
      Nat.succ_ne_self _ (congrArg Label.index h)
    exact (Table.getElem?_insert_of_ne hne).trans Std.ExtTreeMap.getElem?_empty
  · simp [Names.textOf, stagingNames]

/-- A statement of a form that the machine runs is done to its end in some run. -/
theorem exists_executes {st : Ir.Stmt} (hrun : st.isRunnable = true) (call : Call)
    (hcall : st.outer.head? = some call) :
    ∃ names chunks image first m last,
      initial names chunks "_main" [] = .ok (image, first) ∧
      first.moment.Reaches image 1 "_main" m ∧ m.Executes image 1 "_main" st [call] last := by
  obtain ⟨image, first, a, w, hinit, hreach, hcur, hs, hsp, hinput, hbody, htext⟩ :=
    exists_staged st call.callee 1
  rw [Ir.Stmt.isRunnable, Bool.and_eq_true, hcall] at hrun
  obtain ⟨vs, hvs⟩ : ∃ vs, evalAll image w.memory a call.args = .ok vs := by
    obtain ⟨others, houter⟩ := List.head?_eq_some_iff.mp hcall
    have hmem : call ∈ st.outer := houter ▸ List.mem_cons_self
    refine (evalAll_supplied (fun x hx => hs x (Ir.Stmt.mem_reads hx hmem)) ?_).resolve_right ?_
    · exact List.all_eq_true.mpr fun e he =>
        Ir.Expr.isDirect_resumed (List.all_eq_true.mp hrun.2 e he)
    · rintro ⟨hin, -⟩
      exact absurd hrun.2 (by simp [hin])
  obtain ⟨memory, hmemory⟩ := storeArgs_zero call.offsets vs w.memory
  have hbuiltin : builtin { w with memory } "_getc" = .ok ({ w with memory }, 0) := by
    have hadd : Word.checkedAdd 0 Word.size = .ok 8 := by decide
    simp [builtin, hsp, hinput, hadd, exactly, bind, Except.bind, pure, Except.pure]
  have hmove : Moment.move image 1 "_main" ⟨w, [Task.idle a]⟩ =
      .goes ⟨{ w with memory := memory.store w.sp 0 }, [⟨a, some 0⟩]⟩ := by
    rw [← hsp] at hmemory
    simp only [Moment.move, Task.idle, hcur, Call.inStmt_eq, hcall, hvs, hmemory,
      Moment.invoke, hbody, htext, hbuiltin]
  refine ⟨_, _, image, first, _, _, hinit, hreach, ⟨a, [], rfl, hcur⟩,
    .own rfl ?_ hmove (.refl _), rfl, rfl, ?_⟩
  · simp only [Moment.call?, Task.idle, hcur, Option.bind_some, Call.inStmt_eq, hcall]
  · rintro _ ⟨⟩
    exact exec_supplied hs hrun.1 0

end Staging

/-- In every run of every program, an execution of the statement to its end makes each of its calls
once. -/
def CallsEach (st : Ir.Stmt) : Prop :=
  ∀ (names : Names) (chunks : Chunks) (entry : String) (input : List UInt8) (image : Image)
    (first : State) (callDepth : Nat) (m : Moment) (calls : List Call) (last : Moment),
    initial names chunks entry input = .ok (image, first) →
    first.moment.Reaches image callDepth entry m →
    m.Executes image callDepth entry st calls last → calls.Perm st.calls

/-- A statement with several calls makes each of them once only if the machine cannot run it at all.
An execution to the end makes the first call, and its result stands for all others that are not in
arguments.  A call in the arguments of the first is rejected, unless a statement is in them too. -/
theorem several_calls {st : Ir.Stmt} (h : 2 ≤ st.calls.length) :
    (CallsEach st ↔ st.isRunnable = false) ∧
    (∀ (image : Image) (callDepth : Nat) (entry : String) (m : Moment) (calls : List Call)
      (last : Moment), m.Executes image callDepth entry st calls last →
      2 ≤ st.outer.length ∧ calls = st.outer.take 1 ∧
        ∃ a rest v, m.stack = Task.idle a :: rest ∧ last.stack = ⟨a, some v⟩ :: rest ∧
          exec image last.world a (some v) st = exec image last.world a none (st.fill v)) ∧
    ∀ (image : Image) (callDepth : Nat) (entry : String) (m : Moment) (a : Activation)
      (rest : List Task) (call : Call), m.stack = Task.idle a :: rest → a.current? = some st →
      (∀ x ∈ st.reads, Supplies image a x) → st.outer.head? = some call →
      call.args.all (Ir.Expr.isDirect true) = true →
      call.args.all (Ir.Expr.isDirect false) = false →
      m.move image callDepth entry = .faulted (.malformed a.name .secondCall) := by
  refine ⟨⟨fun heach => ?_, fun hrun names chunks entry input image first callDepth m calls last
    _ _ hexec => ?_⟩, fun image callDepth entry m calls last hexec => ?_,
    fun image callDepth entry m a rest call hstack hcur hs hcall =>
      Moment.rejected hstack hcur hcall hs⟩
  · -- a run of a statement that the machine can do would make one call of several
    by_contra hrun
    rw [Bool.not_eq_false] at hrun
    obtain ⟨call, others, houter⟩ :=
      List.exists_cons_of_length_pos (Nat.lt_of_lt_of_le Nat.zero_lt_two (st.two_le_outer h hrun))
    obtain ⟨names, chunks, image, first, m, last, hinit, hreach, hexec⟩ :=
      exists_executes hrun call (by rw [houter]; rfl)
    have hperm := heach _ _ _ _ _ _ _ _ _ _ hinit hreach hexec
    rw [← hperm.length_eq] at h
    exact absurd h (Nat.not_succ_le_self 1)
  · rw [hexec.once.2.1] at hrun
    cases hrun
  · obtain ⟨hcalls, hrun, a, rest, result, hstack, hlast, hresult⟩ := hexec.once
    have htwo := st.two_le_outer h hrun
    refine ⟨htwo, hcalls, ?_⟩
    cases result with
    | none =>
      rw [hresult.mp rfl] at htwo
      exact absurd htwo (Nat.not_succ_le_zero 1)
    | some v => exact ⟨a, rest, v, hstack, hlast, (exec_fill v st).symm⟩

/-- A statement that adds up two octets of the input, each read by a call of its own. -/
def addition : Ir.Stmt :=
  .move (.temp ⟨1⟩) (.binary .add (.call ⟨1⟩ [] []) (.call ⟨1⟩ [] []))

theorem addition_several_calls : 2 ≤ addition.calls.length ∧ ¬ CallsEach addition := by
  refine ⟨by decide, fun heach => ?_⟩
  have hrun : addition.isRunnable = false := (several_calls (by decide)).1.mp heach
  exact absurd hrun (by decide)

/-- The first octet is read once and added to itself. -/
theorem addition_of_one_call :
    run {} { temps := 2, labels := #[some "_main", some "_getc", none, none] }
      { code := [
        { name := "main", frame := ⟨⟨0⟩, 0, 0, 0, 16, ⟨0⟩, ⟨1⟩⟩, entry := ⟨2⟩, exit := ⟨3⟩,
          stmts := [.label ⟨2⟩, addition, .jump ⟨3⟩] }] }
      "_main" [1, 2] = .ok ⟨2, []⟩ := by
  decide +kernel

end Machine

end MmixBackend
