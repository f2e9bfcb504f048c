import MmixBackend.Location
import MmixBackend.Operator
import MmixBackend.Typed.Ty

/-!
# Typed programs

The compiler starts from a tree in which names are resolved and types are known: whatever uses a
name refers to its declaration, every expression carries its type, and nodes carry the place in
the source they come from.

A function may be declared inside another one, in the declarations of a `scope` expression.  A
function without a body is provided by the machine.
-/

namespace MmixBackend.Typed

inductive PrefixOp where
  | not
  | plus
  | minus
  /-- The address of what an expression denotes. -/
  | addressOf
  /-- Allocation of so many bytes. -/
  | new
  /-- Release of what a pointer points to. -/
  | del
  deriving DecidableEq, Repr

inductive Atom where
  | void
  | nil
  | bool (b : Bool)
  | char (c : UInt8)
  | int (v : Word)
  | str (s : String)
  deriving DecidableEq, Repr

/-- What every expression carries. -/
structure Node where
  id : NodeId
  ty : Ty
  /-- Does the expression denote a memory cell?  The compiler decides this by itself. -/
  lvalue : Bool := false
  loc : Location := {}
  deriving Inhabited

/-- What every statement carries. -/
structure Mark where
  id : NodeId
  loc : Location := {}
  deriving Repr, Inhabited

structure Var where
  id : DeclId
  name : String
  ty : Ty
  loc : Location := {}
  deriving Inhabited

structure Param where
  id : DeclId
  name : String
  ty : Ty
  deriving Inhabited

/-- A function without its body. -/
structure Head where
  id : DeclId
  name : String
  params : List Param
  ret : Ty
  loc : Location := {}
  deriving Inhabited

mutual

inductive Expr where
  | atom (node : Node) (a : Atom)
  | name (node : Node) (decl : DeclId)
  | index (node : Node) (arr idx : Expr)
  | field (node : Node) (base : Expr) (comp : DeclId)
  | binary (node : Node) (op : BinOp) (lhs rhs : Expr)
  | unary (node : Node) (op : PrefixOp) (e : Expr)
  /-- What a pointer points to. -/
  | deref (node : Node) (e : Expr)
  | call (node : Node) (callee : DeclId) (args : List Expr)
  | cast (node : Node) (ty : Ty) (e : Expr)
  /-- Statements in order; the value is that of the last one if it is an expression. -/
  | block (node : Node) (body : List Stmt)
  /-- An expression with declarations of its own. -/
  | scope (node : Node) (e : Expr) (decls : List Decl)

inductive Stmt where
  | assign (mark : Mark) (dst src : Expr)
  /-- An expression for its effect. -/
  | eval (mark : Mark) (e : Expr)
  | cond (mark : Mark) (test : Expr) (yes no : List Stmt)
  | loop (mark : Mark) (test : Expr) (body : List Stmt)

inductive Decl where
  | var (v : Var)
  /-- A function provided by the machine. -/
  | foreign (head : Head)
  | fn (head : Head) (body : Expr)

end

/-- A program: its declarations at top level. -/
structure Program where
  decls : List Decl

instance : Inhabited Expr := ⟨.atom default .void⟩

instance : Inhabited Stmt := ⟨.eval default default⟩

instance : Inhabited Decl := ⟨.var default⟩

instance : Inhabited Program := ⟨⟨[]⟩⟩

def Expr.node : Expr → Node
  | .atom n _ | .name n _ | .index n _ _ | .field n _ _ | .binary n _ _ _ | .unary n _ _
  | .deref n _ | .call n _ _ | .cast n _ _ | .block n _ | .scope n _ _ => n

def Expr.id (e : Expr) : NodeId := e.node.id

def Expr.ty (e : Expr) : Ty := e.node.ty

def Expr.loc (e : Expr) : Location := e.node.loc

def Stmt.mark : Stmt → Mark
  | .assign m _ _ | .eval m _ | .cond m _ _ _ | .loop m _ _ => m

end MmixBackend.Typed
