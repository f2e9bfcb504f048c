import MmixBackend.Layout

/-!
# From typed programs to intermediate code

Lowering gives intermediate code to every expression and every statement of a function's body,
and keeps it under its node.  A variable of an outer function is reached by following static
links: the word at a frame pointer is the frame pointer of the function around it.

An expression denotes memory when its intermediate code is a memory access; its address is then
what is accessed.
-/

namespace MmixBackend

open Typed

/-- The intermediate code of the nodes of a program. -/
structure Lowered where
  exprs : Table NodeId Ir.Expr := ∅
  stmts : Table NodeId Ir.Stmt := ∅

/-- What lowering looks up: where things are, and the frame of the function it is in. -/
structure Scope where
  layout : Layout
  frame : Option Frame := none

abbrev Lowering := StateT Lowered Build

/-- The value of an expression that has none. -/
def placeholder : Word := 42

namespace Lowering

def keep (node : Node) (x : Lowering Ir.Expr) : Lowering Ir.Expr := do
  let e ← x
  modify fun t => { t with exprs := t.exprs.insert node.id e }
  return e

def keepStmt (mark : Mark) (x : Lowering Ir.Stmt) : Lowering Ir.Stmt := do
  let s ← x
  modify fun t => { t with stmts := t.stmts.insert mark.id s }
  return s

/-- The frame of the function around a place in the source. -/
def frameAt (scope : Scope) (loc : Location) : Build Frame :=
  match scope.frame with
  | some f => pure f
  | none => Build.defect loc .outsideFunction

def frameOf (scope : Scope) (f : DeclId) (loc : Location) : Build Frame :=
  match scope.layout.frames[f]? with
  | some frame => pure frame
  | none => Build.defect loc (.noFrame f)

def accessOf (scope : Scope) (d : DeclId) (loc : Location) : Build Access :=
  match scope.layout.accesses[d]? with
  | some a => pure a
  | none => Build.defect loc (.noAccess d)

/-- So many static links followed. -/
def follow : Nat → Ir.Expr → Ir.Expr
  | 0, e => e
  | n + 1, e => follow n (.mem e)

def wordAt (base : Ir.Expr) (offset : Word) : Ir.Expr :=
  .mem (.binary .add base (.const offset))

def address (loc : Location) (e : Ir.Expr) : Build Ir.Expr :=
  match e with
  | .mem a => pure a
  | _ => Build.defect loc .notMemory

def atom (scope : Scope) (node : Node) : Atom → Build Ir.Expr
  | .void => pure (.const placeholder)
  | .nil => pure (.const 0)
  | .bool b => pure (.const (Word.ofBool b))
  | .char c => pure (.const (Int64.ofNat c.toNat))
  | .int v => pure (.const v)
  | .str _ =>
    match scope.layout.literals[node.id]? with
    | some (.absolute label _ _) => pure (.name label)
    | _ => Build.defect node.loc .unplacedLiteral

def cell (scope : Scope) (node : Node) (d : DeclId) : Build Ir.Expr := do
  match ← accessOf scope d node.loc with
  | .absolute label _ _ => return .mem (.name label)
  | .relative offset depth =>
    let frame ← frameAt scope node.loc
    if depth ≤ frame.depth then
      return wordAt (follow (frame.depth - depth) (.temp frame.fp)) offset
    else Build.defect node.loc .variableOutOfScope

def component (scope : Scope) (node : Node) (base : Ir.Expr) (c : DeclId) : Build Ir.Expr := do
  match ← accessOf scope c node.loc with
  | .relative offset _ => return wordAt base offset
  | .absolute .. => Build.defect node.loc .absoluteComponent

/-- The label and the static link for a call.  A function at top level needs no link, so it gets
the caller's own frame pointer. -/
def callee (scope : Scope) (node : Node) (f : DeclId) : Build (Label × Ir.Expr) := do
  let target ← frameOf scope f node.loc
  let frame ← frameAt scope node.loc
  if target.depth = 0 then return (target.label, .temp frame.fp)
  let inside ← Build.exactly frame.depthInside
  if target.depth ≤ inside then
    return (target.label, follow (inside - target.depth) (.temp frame.fp))
  else Build.defect node.loc .calleeOutOfScope

mutual

def expr (scope : Scope) : Expr → Lowering Ir.Expr
  | .atom node a => keep node do atom scope node a
  | .name node d => keep node do cell scope node d
  | .index node arr idx => keep node do
    let base ← address arr.loc (← expr scope arr)
    let i ← expr scope idx
    let n ← Build.exactly node.ty.size
    return .mem (.binary .add base (.binary .mul i (.const n)))
  | .field node base comp => keep node do
    let a ← address base.loc (← expr scope base)
    component scope node a comp
  | .binary node op lhs rhs => keep node do
    let l ← expr scope lhs
    let r ← expr scope rhs
    return .binary op l r
  | .unary node op e => keep node do
    match op with
    | .plus => expr scope e
    | .minus => return .unary .neg (← expr scope e)
    | .not => return .unary .not (← expr scope e)
    | .addressOf => address e.loc (← expr scope e)
    | .new =>
      let label ← Build.namedLabel "_new"
      let frame ← frameAt scope node.loc
      return .call label [0, Word.size] [.temp frame.fp, ← expr scope e]
    | .del =>
      let label ← Build.namedLabel "_del"
      let frame ← frameAt scope node.loc
      return .call label [0, Word.size] [.temp frame.fp, ← expr scope e]
  | .deref node e => keep node do return .mem (← expr scope e)
  | .call node f args => keep node do
    let (label, link) ← callee scope node f
    let (offsets, values) ← arguments scope Word.size args
    return .call label (0 :: offsets) (link :: values)
  | .cast node ty e => keep node do
    let v ← expr scope e
    return if ty.isChar then .binary .mod v (.const 256) else v
  | .block node body => keep node do
    let (ss, v) ← block scope body
    return .after (.seq ss) v
  | .scope node e decls => keep node do
    functions scope decls
    expr scope e

def arguments (scope : Scope) : Word → List Expr → Lowering (List Word × List Ir.Expr)
  | _, [] => return ([], [])
  | offset, a :: as => do
    let v ← expr scope a
    let n ← Build.exactly a.ty.size
    let next ← Build.exactly (Word.checkedAdd offset n)
    let (offsets, values) ← arguments scope next as
    return (offset :: offsets, v :: values)

def block (scope : Scope) : List Stmt → Lowering (List Ir.Stmt × Ir.Expr)
  | [] => return ([], .const placeholder)
  | [.eval mark e] => do
    let v ← expr scope e
    let _ ← keepStmt mark (return .eval v)
    return ([], v)
  | s :: ss => do
    let x ← stmt scope s
    let (xs, v) ← block scope ss
    return (x :: xs, v)

def stmt (scope : Scope) : Stmt → Lowering Ir.Stmt
  | .assign mark dst src => keepStmt mark do
    let d ← expr scope dst
    let s ← expr scope src
    return .move d s
  | .eval mark e => keepStmt mark do return .eval (← expr scope e)
  | .cond mark test yes no => keepStmt mark do
    let onYes ← Build.newLabel
    let onNo ← Build.newLabel
    let done ← Build.newLabel
    let c ← expr scope test
    let ys ← stmts scope yes
    let ns ← stmts scope no
    return .seq ([.branch c onYes onNo, .label onYes] ++ ys ++
      [.jump done, .label onNo] ++ ns ++ [.label done])
  | .loop mark test body => keepStmt mark do
    let again ← Build.newLabel
    let enter ← Build.newLabel
    let done ← Build.newLabel
    let c ← expr scope test
    let ss ← stmts scope body
    return .seq ([.label again, .branch c enter done, .label enter] ++ ss ++
      [.jump again, .label done])

def stmts (scope : Scope) : List Stmt → Lowering (List Ir.Stmt)
  | [] => return []
  | s :: ss => do
    let x ← stmt scope s
    let xs ← stmts scope ss
    return x :: xs

def function (scope : Scope) : Decl → Lowering Unit
  | .var _ | .foreign _ => pure ()
  | .fn head body => do
    let frame ← frameOf scope head.id head.loc
    Build.note (.lowering head.name frame.depth)
    let _ ← expr { scope with frame := some frame } body

def functions (scope : Scope) : List Decl → Lowering Unit
  | [] => pure ()
  | d :: ds => do
    function scope d
    functions scope ds

end

end Lowering

def Typed.Program.lower (p : Program) (layout : Layout) : Build Lowered := do
  let (_, t) ← (Lowering.functions { layout } p.decls).run {}
  return t

end MmixBackend
