import MmixBackend.Machine.Image
import MmixBackend.Note

/-!
# Steps of the machine

The machine runs linear code statement by statement.  Calls are kept on an explicit stack of
activations.  A statement that holds a call runs in two halves: first its arguments are stored
and the call is made, and when the call has returned the statement runs with the result in the
place of the call.

A step is the first half, or the whole, of one statement together with every second half that
follows from it at once: a function that the machine provides returns immediately, and a
statement that resumes with a result may itself end its function.
-/

namespace MmixBackend.Machine

/-- A running function. -/
structure Activation where
  body : Body
  temps : Table Temp Word
  /-- Position of the current statement. -/
  position : Nat
  /-- SP of the caller, which is FP of this function. -/
  savedSp : Word
  /-- Number of functions running, this one included. -/
  level : Nat

/-- What the running functions share. -/
structure World where
  memory : Memory
  sp : Word
  hp : Word
  input : List UInt8
  /-- The octets written, the latest first. -/
  output : List UInt8

/-- The machine between two steps. -/
structure State where
  world : World
  /-- The function that is running. -/
  top : Activation
  /-- The functions that wait for a call, the innermost first. -/
  callers : List Activation

/-- What a step leads to. -/
inductive Progress where
  | running (s : State)
  | halted (exit : Word) (w : World)
  | faulted (f : Fault)

namespace Activation

def name (a : Activation) : String := a.body.chunk.name

def current? (a : Activation) : Option Ir.Stmt := a.body.code[a.position]?

def temp (a : Activation) (t : Temp) : Except Fault Word :=
  match a.temps[t]? with
  | some v => .ok v
  | none => .error (.undefinedTemp t a.name)

def malformed {α : Type} (a : Activation) (what : Malformation) : Except Fault α :=
  .error (.malformed a.name what)

end Activation

/-! ## Statements -/

/-- The value of an expression.  `result` is what the call in the statement returned. -/
def eval (image : Image) (m : Memory) (a : Activation) (result : Option Word) :
    Ir.Expr → Except Fault Word
  | .const v => .ok v
  | .name l =>
    match image.data[l]? with
    | some addr => .ok addr
    | none => .error (.unknownData (image.names.textOf l))
  | .temp t => a.temp t
  | .mem e => do
    let addr ← eval image m a result e
    return m.load addr
  | .binary op l r => do
    let x ← eval image m a result l
    let y ← eval image m a result r
    return op.eval x y
  | .unary op e => do
    let v ← eval image m a result e
    return op.eval v
  | .call .. =>
    match result with
    | some v => .ok v
    | none => a.malformed .secondCall
  | .after .. => a.malformed .statement

/-- Runs a statement that has no call to make; gives the label to go to, if any. -/
def exec (image : Image) (w : World) (a : Activation) (result : Option Word) :
    Ir.Stmt → Except Fault (World × Activation × Option Label)
  | .label _ => .ok (w, a, none)
  | .jump l => .ok (w, a, some l)
  | .branch c pos neg => do
    let v ← eval image w.memory a result c
    return (w, a, some (if v ≠ 0 then pos else neg))
  | .eval e => do
    let _ ← eval image w.memory a result e
    return (w, a, none)
  | .move dst src => do
    let v ← eval image w.memory a result src
    match dst with
    | .temp t => return (w, { a with temps := a.temps.insert t v }, none)
    | .mem e =>
      let addr ← eval image w.memory a result e
      return ({ w with memory := w.memory.store addr v }, a, none)
    | _ => a.malformed .target
  | .seq _ => a.malformed .sequence

/-! ## Calls -/

/-- A call that a statement makes. -/
structure Call where
  callee : Label
  offsets : List Word
  args : List Ir.Expr

/-- The first call in an expression, outside statements and arguments. -/
def Call.inExpr : Ir.Expr → Option Call
  | .call callee offsets args => some { callee, offsets, args }
  | .mem e => Call.inExpr e
  | .unary _ e => Call.inExpr e
  | .binary _ l r => Call.inExpr l <|> Call.inExpr r
  | .const _ | .name _ | .temp _ | .after .. => none

/-- The call that a statement makes, if any; in a move, one in the source goes first. -/
def Call.inStmt : Ir.Stmt → Option Call
  | .branch c _ _ => Call.inExpr c
  | .eval e => Call.inExpr e
  | .move dst src => Call.inExpr src <|> Call.inExpr dst
  | .label _ | .jump _ | .seq _ => none

def evalAll (image : Image) (m : Memory) (a : Activation) : List Ir.Expr → Except Fault (List Word)
  | [] => .ok []
  | e :: es => do
    let v ← eval image m a none e
    let vs ← evalAll image m a es
    return v :: vs

/-- Stores arguments at their offsets from SP, as many as there are of both. -/
def storeArgs (sp : Word) (m : Memory) : List Word → List Word → Except Overflow Memory
  | offset :: offsets, v :: vs => do
    let addr ← Word.checkedAdd sp offset
    storeArgs sp (m.store addr v) offsets vs
  | _, _ => .ok m

/-- Runs a function that the machine provides; its argument is at SP + 8. -/
def builtin (w : World) (name : String) : Except Fault (World × Word) := do
  let addr ← exactly (Word.checkedAdd w.sp Word.size)
  let arg := w.memory.load addr
  if name = "_new" then
    let hp ← exactly (Word.checkedAdd w.hp arg)
    return ({ w with hp }, w.hp)
  else if name = "_del" then return (w, 0)
  else if name = "_putc" then
    return ({ w with output := arg.toUInt64.toUInt8 :: w.output }, 0)
  else if name = "_getc" then
    match w.input with
    | [] => return (w, 0)
    | b :: bs => return ({ w with input := bs }, Int64.ofNat b.toNat)
  else .error (.unknownFunction name)

/-- Starts a function whose arguments are stored: SP becomes its FP, and its frame goes
below. -/
def enter (w : World) (body : Body) (level : Nat) : Except Overflow (World × Activation) := do
  let fp := w.sp
  let sp ← Word.checkedSub fp body.chunk.frame.size
  return ({ w with sp },
    { body, temps := (∅ : Table Temp Word).insert body.chunk.frame.fp fp, position := 0,
      savedSp := fp, level })

/-! ## Steps -/

/-- Goes on after a statement: to the next one, to a label, or out of the function.  A function
that ends leaves its result at SP and the statement of its caller resumes with it. -/
def settle (image : Image) (notes : List Note) (w : World) (a : Activation)
    (target : Option Label) (callers : List Activation) : List Note × Progress :=
  match target with
  | none => (notes, .running ⟨w, { a with position := a.position + 1 }, callers⟩)
  | some l =>
    if l = a.body.chunk.exit then
      match a.temp a.body.chunk.frame.rv with
      | .error f => (notes, .faulted f)
      | .ok result =>
        match callers with
        | [] => (notes, .halted result { w with sp := a.savedSp })
        | c :: cs =>
          match c.current? with
          | none => (notes, .faulted (.malformed c.name .fellOff))
          | some s =>
            let w := { w with sp := a.savedSp, memory := w.memory.store a.savedSp result }
            match exec image w c (some result) s with
            | .error f => (notes, .faulted f)
            | .ok (w, c', target) =>
              settle image (.resumed c.name c.position :: notes) w c' target cs
    else
      match a.body.targets[l]? with
      | some position => (notes, .running ⟨w, { a with position }, callers⟩)
      | none => (notes, .faulted (.unknownLabel (image.names.textOf l) a.name))

/-- Makes a call: enters the function if it has a body, otherwise runs what the machine provides
and resumes the statement. -/
def invoke (image : Image) (callDepth : Nat) (s : State) (stmt : Ir.Stmt) (call : Call)
    (m : Memory) : List Note × Progress :=
  let w := { s.world with memory := m }
  match image.bodies[call.callee]? with
  | some body =>
    match enter w body (s.top.level + 1) with
    | .error cause => ([], .faulted (.overflow cause))
    | .ok (w, callee) =>
      let notes := [Note.entered callee.name callee.savedSp]
      if s.top.level < callDepth then (notes, .running ⟨w, callee, s.top :: s.callers⟩)
      else (notes, .faulted (.callDepth callDepth))
  | none =>
    match builtin w (image.names.textOf call.callee) with
    | .error f => ([], .faulted f)
    | .ok (w, result) =>
      let w := { w with memory := w.memory.store w.sp result }
      match exec image w s.top (some result) stmt with
      | .error f => ([], .faulted f)
      | .ok (w, a, target) =>
        settle image [.resumed s.top.name s.top.position] w a target s.callers

/-- One step, at the current statement; at most `callDepth` functions may run at once.  The
notes come latest first. -/
def step (image : Image) (callDepth : Nat) (s : State) (stmt : Ir.Stmt) : List Note × Progress :=
  match Call.inStmt stmt with
  | some call =>
    match evalAll image s.world.memory s.top call.args with
    | .error f => ([], .faulted f)
    | .ok vs =>
      match storeArgs s.world.sp s.world.memory call.offsets vs with
      | .error cause => ([], .faulted (.overflow cause))
      | .ok m => invoke image callDepth s stmt call m
  | none =>
    match exec image s.world s.top none stmt with
    | .error f => ([], .faulted f)
    | .ok (w, a, target) => settle image [] w a target s.callers

end MmixBackend.Machine
