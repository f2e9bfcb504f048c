import MmixBackend.Typed.Expr

/-!
# Building typed programs

A builder hands out fresh identities, puts a place in the source on what it builds, and works
out types and which expressions denote memory cells.
-/

namespace MmixBackend.Typed

/-- The next identities, and the place in the source for what is built. -/
structure Builder where
  nextNode : UInt32 := 0
  nextDecl : UInt32 := 0
  loc : Location := {}
  deriving Repr, Inhabited

abbrev Building := StateM Builder

namespace Building

/-- Whatever is built from now on stands here. -/
def here (line column : UInt64) : Building Unit := modify fun b => { b with loc := { line, column } }

def declId : Building DeclId :=
  modifyGet fun b => (⟨b.nextDecl⟩, { b with nextDecl := b.nextDecl + 1 })

def nodeId : Building NodeId :=
  modifyGet fun b => (⟨b.nextNode⟩, { b with nextNode := b.nextNode + 1 })

def node (ty : Ty) (lvalue : Bool := false) : Building Node := do
  let id ← nodeId
  return { id, ty, lvalue, loc := (← get).loc }

def mark : Building Mark := do
  let id ← nodeId
  return { id, loc := (← get).loc }

/-! ## Declarations -/

def var (name : String) (ty : Ty) : Building Var := do
  let id ← declId
  return { id, name, ty, loc := (← get).loc }

def param (name : String) (ty : Ty) : Building Param := do
  let id ← declId
  return { id, name, ty }

def component (name : String) (ty : Ty) : Building Component := do
  let id ← declId
  return ⟨id, name, ty⟩

/-- A function, which may get its body later, so that the body can call it. -/
def head (name : String) (params : List Param) (ret : Ty) : Building Head := do
  let id ← declId
  return { id, name, params, ret, loc := (← get).loc }

/-! ## Expressions -/

def atom (ty : Ty) (a : Atom) : Building Expr := return .atom (← node ty) a

def int (v : Word) : Building Expr := atom .int (.int v)

def bool (b : Bool) : Building Expr := atom .bool (.bool b)

def char (c : UInt8) : Building Expr := atom .char (.char c)

def string (s : String) : Building Expr := atom (.ptr .char) (.str s)

def void : Building Expr := atom .void .void

def nil : Building Expr := atom (.ptr .void) .nil

def name (id : DeclId) (ty : Ty) : Building Expr := return .name (← node ty true) id

/-- The type of an array's elements; any other type stays. -/
def elemOf : Ty → Ty
  | .array elem _ => elem
  | ty => ty

def index (arr idx : Expr) : Building Expr :=
  return .index (← node (elemOf arr.ty) arr.node.lvalue) arr idx

def field (base : Expr) (c : Component) : Building Expr :=
  return .field (← node c.ty base.node.lvalue) base c.id

/-- The type of a binary operator's value. -/
def typeOf (op : BinOp) : Ty :=
  if op = .or ∨ op = .and ∨ op.isRelational then .bool else .int

def binary (op : BinOp) (lhs rhs : Expr) : Building Expr :=
  return .binary (← node (typeOf op)) op lhs rhs

/-- The type of a unary operator's value. -/
def prefixType (ty : Ty) : PrefixOp → Ty
  | .not => .bool
  | .plus | .minus => .int
  | .addressOf => .ptr ty
  | .new => .ptr .void
  | .del => .void

def unary (op : PrefixOp) (e : Expr) : Building Expr :=
  return .unary (← node (prefixType e.ty op)) op e

/-- The type that a pointer points to; any other type stays. -/
def targetOf : Ty → Ty
  | .ptr target => target
  | ty => ty

def deref (e : Expr) : Building Expr := return .deref (← node (targetOf e.ty) true) e

def call (f : Head) (args : List Expr) : Building Expr := return .call (← node f.ret) f.id args

def cast (ty : Ty) (e : Expr) : Building Expr := return .cast (← node ty) ty e

/-- The type of a block: that of the expression it ends with, if it does. -/
def blockType : List Stmt → Ty
  | [] => .void
  | [.eval _ e] => e.ty
  | [_] => .void
  | _ :: ss => blockType ss

def block (body : List Stmt) : Building Expr := return .block (← node (blockType body)) body

def scope (e : Expr) (decls : List Decl) : Building Expr :=
  return .scope (← node e.ty) e decls

/-! ## Statements -/

def assign (dst src : Expr) : Building Stmt := return .assign (← mark) dst src

def eval (e : Expr) : Building Stmt := return .eval (← mark) e

def cond (test : Expr) (yes no : List Stmt) : Building Stmt := return .cond (← mark) test yes no

def loop (test : Expr) (body : List Stmt) : Building Stmt := return .loop (← mark) test body

end Building

end MmixBackend.Typed
