import MmixBackend.Lowering
import MmixBackend.Machine.Run

/-!
# Direct evaluation of typed programs

What a typed program means, by recursion on its tree and with no intermediate code: operands
and arguments from left to right, the address of an assignment before the value, both operands
of `and` and `or`, conditionals and loops as they are written.  The evaluation works on the
memory of the machine: data, stack and heap lie where the layout puts them, the arguments of a
call are stored at their offsets from SP, and its result is stored at SP.

An expression that denotes memory is evaluated with its last reads left out when an address is
asked for: `expr c e 0` is the value of `e`, `expr c e 1` the address that it is read from, and
so on inward.

The recursion is not structural where a function is called or a loop goes round again, so it
has fuel: functions may be nested that deep and a loop may take that many rounds.  An evaluation
that runs out of fuel is unfinished, and a program has a result when some amount of fuel gives
one.
-/

namespace MmixBackend

open Typed Machine

/-! ## Answers -/

/-- How an evaluation ends. -/
inductive Answer (α : Type) where
  | value (a : α)
  /-- The machine has a fault for it. -/
  | fault (f : Fault)
  /-- The fuel was used up. -/
  | unfinished
  /-- The tree has no meaning at this place: lowering rejects it. -/
  | meaningless
  deriving DecidableEq

namespace Answer

/-- One evaluation after another. -/
def bind {α β : Type} (x : Answer α) (f : α → Answer β) : Answer β :=
  match x with
  | value a => f a
  | fault e => fault e
  | unfinished => unfinished
  | meaningless => meaningless

instance : Monad Answer where
  pure := value
  bind := bind

variable {α β : Type}

@[simp] theorem value_bind (a : α) (f : α → Answer β) : value a >>= f = f a := rfl

@[simp] theorem fault_bind (e : Fault) (f : α → Answer β) :
    fault e >>= f = fault e := rfl

@[simp] theorem unfinished_bind (f : α → Answer β) :
    unfinished >>= f = unfinished := rfl

@[simp] theorem meaningless_bind (f : α → Answer β) :
    meaningless >>= f = meaningless := rfl

instance : LawfulMonad Answer :=
  LawfulMonad.mk' Answer
    (fun x => by cases x <;> rfl)
    (fun _ _ => rfl)
    (fun x _ _ => by cases x <;> rfl)

end Answer

abbrev Evaluation := StateT World Answer

/-- What a call reaches. -/
inductive Callee where
  /-- The body of a function and its frame. -/
  | body (frame : Frame) (e : Expr)
  /-- A function that the machine provides. -/
  | provided (name : String)

/-- What is under a label: a body, if there is one, or else what the machine provides. -/
def Callee.under (names : Names) (bodies : Table Label (Frame × Expr)) (l : Label) : Callee :=
  match bodies[l]? with
  | some (frame, e) => .body frame e
  | none => .provided (names.textOf l)

/-- How calls find what they reach. -/
structure Linkage where
  /-- From a declared function. -/
  function : DeclId → Option Callee
  /-- From `new` and `del`, which have a name only. -/
  runtime : String → Callee
  /-- The function to start at. -/
  entry : Option (Frame × Expr)

/-- What an evaluation looks up. -/
structure Setting where
  names : Names
  layout : Layout
  /-- The addresses of data. -/
  data : Table Label Word
  linkage : Linkage

/-- What a running function looks up. -/
structure Running where
  setting : Setting
  frame : Frame
  /-- The frame pointer. -/
  fp : Word
  /-- Runs the body of a called function, given its frame and its frame pointer. -/
  run : Frame → Word → Expr → Evaluation Word
  /-- So many rounds may a loop take. -/
  rounds : Nat

/-! ## Memory and calls -/

namespace Evaluation

variable {α : Type}

def unfinished : Evaluation α := fun _ => .unfinished

def meaningless : Evaluation α := fun _ => .meaningless

/-- A result of the machine. -/
def lift (x : Except Fault α) : Evaluation α := fun w =>
  match x with
  | .ok a => .value (a, w)
  | .error f => .fault f

/-- A result of exact arithmetic. -/
def exactly (x : Except Overflow α) : Evaluation α := lift (Machine.exactly x)

/-- The word at an address. -/
def load (a : Word) : Evaluation Word := fun w => .value (w.memory.load a, w)

def store (a v : Word) : Evaluation Unit := fun w =>
  .value ((), { w with memory := w.memory.store a v })

/-- So many static links followed from a frame pointer. -/
def follow : Nat → Word → Evaluation Word
  | 0, fp => pure fp
  | n + 1, fp => do
    let outer ← load fp
    follow n outer

def address (s : Setting) (l : Label) : Evaluation Word :=
  match s.data[l]? with
  | some a => pure a
  | none => lift (.error (.unknownData (s.names.textOf l)))

/-- What does not denote memory has a value and no address. -/
def plain (x : Evaluation Word) : Nat → Evaluation Word
  | 0 => x
  | _ + 1 => meaningless

/-- What denotes memory at an address has the word there as its value. -/
def reading (x : Evaluation Word) : Nat → Evaluation Word
  | 0 => do
    let a ← x
    load a
  | 1 => x
  | _ + 2 => meaningless

/-- Makes a call: stores the arguments at their offsets from SP, runs what is called with SP as
its frame pointer and its frame below, and stores the result at SP. -/
def invoke (run : Frame → Word → Expr → Evaluation Word) (callee : Callee)
    (offsets args : List Word) : Evaluation Word := do
  let w ← get
  let m ← exactly (storeArgs w.sp w.memory offsets args)
  match callee with
  | .body frame e =>
    let sp ← exactly (Word.checkedSub w.sp frame.size)
    set { w with memory := m, sp }
    let v ← run frame w.sp e
    modify fun w' => { w' with sp := w.sp, memory := w'.memory.store w.sp v }
    return v
  | .provided name =>
    let (w, v) ← lift (builtin { w with memory := m } name)
    set { w with memory := w.memory.store w.sp v }
    return v

section Equations

variable {α β γ : Type}

/-! Evaluations are put together in front of what follows them. -/

theorem pure_before (a : α) (w : World) (k : α × World → Answer γ) :
    (pure a : Evaluation α) w >>= k = k (a, w) := rfl

theorem bind_before (x : Evaluation α) (f : α → Evaluation β) (w : World)
    (k : β × World → Answer γ) :
    (x >>= f) w >>= k = x w >>= fun r => f r.1 r.2 >>= k := by
  show (x w >>= fun r => f r.1 r.2) >>= k = _
  rw [bind_assoc]

theorem map_before (x : Evaluation α) (f : α → β) (w : World) (k : β × World → Answer γ) :
    (f <$> x) w >>= k = x w >>= fun r => k (f r.1, r.2) := by
  rw [map_eq_pure_bind, bind_before]
  rfl

variable {offsets args : List Word} {run : Frame → Word → Expr → Evaluation Word}

theorem invoke_storeArgs_error {callee : Callee} {w : World} {cause : Overflow}
    (h : storeArgs w.sp w.memory offsets args = .error cause) (k : Word × World → Answer γ) :
    invoke run callee offsets args w >>= k = .fault (.overflow cause) := by
  unfold invoke
  rw [bind_before]
  show (exactly (storeArgs w.sp w.memory offsets args) >>= _) w >>= k = _
  rw [h]
  rfl

theorem invoke_body_before {frame : Frame} {e : Expr} {w : World} {m : Memory}
    (h : storeArgs w.sp w.memory offsets args = .ok m) (k : Word × World → Answer γ) :
    invoke run (.body frame e) offsets args w >>= k =
      match Word.checkedSub w.sp frame.size with
      | .error cause => .fault (.overflow cause)
      | .ok sp => run frame w.sp e { w with memory := m, sp } >>= fun r =>
        k (r.1, { r.2 with sp := w.sp, memory := r.2.memory.store w.sp r.1 }) := by
  unfold invoke
  rw [bind_before]
  show (exactly (storeArgs w.sp w.memory offsets args) >>= _) w >>= k = _
  rw [h, bind_before]
  show (exactly (Word.checkedSub w.sp frame.size) >>= _) w >>= k = _
  cases Word.checkedSub w.sp frame.size with
  | error cause => rfl
  | ok sp =>
    rw [bind_before]
    show ((set { w with memory := m, sp } : Evaluation PUnit) >>= _) w >>= k = _
    rw [bind_before]
    show (run frame w.sp e >>= _) { w with memory := m, sp } >>= k = _
    rw [bind_before]
    rfl

theorem invoke_provided_before {name : String} {w : World} {m : Memory}
    (h : storeArgs w.sp w.memory offsets args = .ok m) (k : Word × World → Answer γ) :
    invoke run (.provided name) offsets args w >>= k =
      match builtin { w with memory := m } name with
      | .error f => .fault f
      | .ok (w', v) => k (v, { w' with memory := w'.memory.store w'.sp v }) := by
  unfold invoke
  rw [bind_before]
  show (exactly (storeArgs w.sp w.memory offsets args) >>= _) w >>= k = _
  rw [h, bind_before]
  show (lift (builtin { w with memory := m } name) >>= _) w >>= k = _
  cases builtin { w with memory := m } name with
  | error f => rfl
  | ok r => rfl

end Equations

/-- Rounds of a loop, at most so many. -/
def repeatWhile (test : Evaluation Word) (body : Evaluation Unit) : Nat → Evaluation Unit
  | 0 => unfinished
  | n + 1 => do
    let v ← test
    if v ≠ 0 then
      body
      repeatWhile test body n
    else pure ()

/-! ## Trees -/

/-- A constant, or the address of a literal. -/
def atom (c : Running) (node : Node) : Atom → Evaluation Word
  | .void => pure placeholder
  | .nil => pure 0
  | .bool b => pure (Word.ofBool b)
  | .char x => pure (Int64.ofNat x.toNat)
  | .int v => pure v
  | .str _ =>
    match c.setting.layout.literals[node.id]? with
    | some (.absolute label _ _) => address c.setting label
    | _ => meaningless

/-- The address of a variable or a parameter. -/
def cell (c : Running) (d : DeclId) : Evaluation Word :=
  match c.setting.layout.accesses[d]? with
  | some (.absolute label _ _) => address c.setting label
  | some (.relative offset depth) =>
    if depth ≤ c.frame.depth then do
      let fp ← follow (c.frame.depth - depth) c.fp
      return fp + offset
    else meaningless
  | none => meaningless

def component (c : Running) (d : DeclId) : Evaluation Word :=
  match c.setting.layout.accesses[d]? with
  | some (.relative offset _) => pure offset
  | _ => meaningless

/-- The static link for a call of a function at a depth. -/
def link (c : Running) (depth : Nat) : Evaluation Word :=
  if depth = 0 then pure c.fp
  else if depth ≤ c.frame.depth + 1 then follow (c.frame.depth + 1 - depth) c.fp
  else meaningless

def sizeOf (ty : Ty) : Evaluation Word :=
  match ty.size with
  | .ok n => pure n
  | .error _ => meaningless

def offsetBy (a b : Word) : Evaluation Word :=
  match Word.checkedAdd a b with
  | .ok n => pure n
  | .error _ => meaningless

mutual

/-- The value of an expression with its last `k` reads from memory left out. -/
def expr (c : Running) : Expr → Nat → Evaluation Word
  | .atom node a, k => plain (atom c node a) k
  | .name _ d, k => reading (cell c d) k
  | .index node arr idx, k => reading (do
      let a ← expr c arr 1
      let i ← expr c idx 0
      let n ← sizeOf node.ty
      return a + i * n) k
  | .field _ base comp, k => reading (do
      let a ← expr c base 1
      let offset ← component c comp
      return a + offset) k
  | .binary _ op lhs rhs, k => plain (do
      let x ← expr c lhs 0
      let y ← expr c rhs 0
      return op.eval x y) k
  | .unary _ op e, k =>
    match op with
    | .plus => expr c e k
    | .minus => plain (do
        let v ← expr c e 0
        return UnOp.neg.eval v) k
    | .not => plain (do
        let v ← expr c e 0
        return UnOp.not.eval v) k
    | .addressOf => expr c e (k + 1)
    | .new => plain (do
        let v ← expr c e 0
        invoke c.run (c.setting.linkage.runtime "_new") [0, Word.size] [c.fp, v]) k
    | .del => plain (do
        let v ← expr c e 0
        invoke c.run (c.setting.linkage.runtime "_del") [0, Word.size] [c.fp, v]) k
  | .deref _ e, 0 => do
    let a ← expr c e 0
    load a
  | .deref _ e, k + 1 => expr c e k
  | .call _ f args, k =>
    match c.setting.layout.frames[f]?, c.setting.linkage.function f with
    | some target, some callee => plain (do
        let fp ← link c target.depth
        let (offsets, vs) ← arguments c Word.size args
        invoke c.run callee (0 :: offsets) (fp :: vs)) k
    | _, _ => meaningless
  | .cast _ ty e, k =>
    if ty.isChar then plain (do
      let v ← expr c e 0
      return BinOp.mod.eval v 256) k
    else expr c e k
  | .block _ body, k => plain (block c body) k
  | .scope _ e _, k => expr c e k

/-- The offsets and the values of arguments, from an offset on. -/
def arguments (c : Running) : Word → List Expr → Evaluation (List Word × List Word)
  | _, [] => pure ([], [])
  | offset, a :: as => do
    let v ← expr c a 0
    let n ← sizeOf a.ty
    let next ← offsetBy offset n
    let (offsets, vs) ← arguments c next as
    return (offset :: offsets, v :: vs)

/-- Statements in order; the value is that of the last one if it is an expression. -/
def block (c : Running) : List Stmt → Evaluation Word
  | [] => pure placeholder
  | [.eval _ e] => expr c e 0
  | s :: ss => do
    stmt c s
    block c ss

/-- The effect of a statement. -/
def stmt (c : Running) : Stmt → Evaluation Unit
  | .assign _ dst src => do
    let a ← expr c dst 1
    let v ← expr c src 0
    store a v
  | .eval _ e => do
    let _ ← expr c e 0
  | .cond _ test yes no => do
    let v ← expr c test 0
    if v ≠ 0 then stmts c yes else stmts c no
  | .loop _ test body => repeatWhile (expr c test 0) (stmts c body) c.rounds

def stmts (c : Running) : List Stmt → Evaluation Unit
  | [] => pure ()
  | s :: ss => do
    stmt c s
    stmts c ss

end

/-- The value of a function's body, given its frame and its frame pointer, with so much
fuel. -/
def function (s : Setting) : Nat → Frame → Word → Expr → Evaluation Word
  | 0, _, _, _ => unfinished
  | n + 1, frame, fp, e =>
    expr { setting := s, frame, fp, run := function s n, rounds := n + 1 } e 0

end Evaluation

/-! ## Programs -/

mutual

/-- The functions of a tree of functions that have a body, those inside one before it. -/
def Typed.Routine.functions : Routine → List (Head × Expr)
  | .mk _ none _ => []
  | .mk head (some body) inner => Typed.Routine.listFunctions inner ++ [(head, body)]

def Typed.Routine.listFunctions : List Routine → List (Head × Expr)
  | [] => []
  | r :: rs => r.functions ++ Typed.Routine.listFunctions rs

end

@[simp] theorem Typed.Routine.listFunctions_append (rs rs' : List Routine) :
    Routine.listFunctions (rs ++ rs') = Routine.listFunctions rs ++ Routine.listFunctions rs' := by
  induction rs with
  | nil => rfl
  | cons r rs ih => simp only [List.cons_append, Routine.listFunctions, ih, List.append_assoc]

mutual

/-- The literals of a tree of functions, those of a function before those inside it. -/
def Typed.Routine.data (layout : Layout) : Routine → List DataChunk
  | .mk _ none _ => []
  | .mk _ (some body) inner =>
    body.within.filterMap (·.literalChunk? layout) ++ Typed.Routine.listData layout inner

def Typed.Routine.listData (layout : Layout) : List Routine → List DataChunk
  | [] => []
  | r :: rs => r.data layout ++ Typed.Routine.listData layout rs

end

/-- The data of a declaration at top level. -/
def Typed.Decl.data (layout : Layout) : Decl → List DataChunk
  | .var v => (layout.accesses[v.id]? >>= DataChunk.ofAccess?).toList
  | .foreign _ => []
  | .fn head body => (Routine.mk head (some body) body.routines).data layout

namespace Typed.Program

def functions (p : Program) : List (Head × Expr) :=
  Routine.listFunctions (Decl.listRoutines p.decls)

theorem mem_functions {p : Program} {head : Head} {body : Expr}
    (h : Decl.fn head body ∈ p.decls) : (head, body) ∈ p.functions := by
  unfold functions
  generalize p.decls = ds at h ⊢
  induction ds with
  | nil => cases h
  | cons d ds ih =>
    rw [Decl.listRoutines, Routine.listFunctions_append, List.mem_append]
    rcases List.mem_cons.mp h with rfl | h
    · refine Or.inl ?_
      simp [Decl.routine?, Routine.listFunctions, Routine.functions]
    · exact Or.inr (ih h)

def data (p : Program) (layout : Layout) : List DataChunk :=
  p.decls.flatMap (Decl.data layout)

/-- The bodies by the labels of their frames; of two with one label, the last. -/
def bodies (p : Program) (layout : Layout) : Table Label (Frame × Expr) :=
  p.functions.foldl
    (fun t f =>
      match layout.frames[f.1.id]? with
      | some frame => t.insert frame.label (frame, f.2)
      | none => t)
    ∅

/-- Calls go by label: functions at top level are known by their names, and whatever has a body
under a name is what the name reaches. -/
def byLabel (p : Program) (names : Names) (layout : Layout) : Linkage where
  function d := layout.frames[d]?.map fun frame => Callee.under names (p.bodies layout) frame.label
  runtime name :=
    match names.lookup name with
    | some l => Callee.under names (p.bodies layout) l
    | none => .provided name
  entry := names.lookup "_main" >>= ((p.bodies layout)[·]?)

/-- Calls go by declaration: each reaches the body of the function that it refers to, and `new`
and `del` are provided by the machine. -/
def byDeclaration (p : Program) (names : Names) (layout : Layout) : Linkage where
  function d := layout.frames[d]?.map fun frame =>
    match p.functions.find? (·.1.id = d) with
    | some (_, e) => .body frame e
    | none => .provided (names.textOf frame.label)
  runtime name := .provided name
  entry := p.decls.findSome? fun
    | .fn head e =>
      if head.name = "main" then layout.frames[head.id]?.map fun frame => (frame, e) else none
    | _ => none

/-- The result of evaluating a program on an input with so much fuel. -/
def evaluate (p : Program) (names : Names) (layout : Layout) (linkage : Linkage) (fuel : Nat)
    (input : List UInt8) : Answer Outcome :=
  match placeData dataStart ∅ {} (p.data layout) with
  | .error cause => .fault (.overflow cause)
  | .ok (data, m) =>
    match linkage.entry with
    | none => .fault (.missingEntry "_main")
    | some (frame, e) =>
      match Word.checkedSub stackStart frame.size with
      | .error cause => .fault (.overflow cause)
      | .ok sp => do
        let s : Setting := { names, layout, data, linkage }
        let (exit, w) ← Evaluation.function s fuel frame stackStart e
          { memory := m.store stackStart 0, sp, hp := heapStart, input, output := [] }
        return { exit, output := w.output.reverse }

end Typed.Program

end MmixBackend
