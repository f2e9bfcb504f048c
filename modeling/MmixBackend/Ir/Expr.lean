import MmixBackend.Names
import MmixBackend.Operator

/-!
# Intermediate code

Expressions and statements of the intermediate code are trees over words, temporaries, labels
and memory.  A call lists the offset of each argument from the stack pointer; its first argument
is the static link.  `after` evaluates a statement for its effect before an expression; it is
what canonical code has no more of.
-/

namespace MmixBackend.Ir

mutual

/-- An expression of the intermediate code. -/
inductive Expr where
  | const (v : Word)
  /-- The address of a label. -/
  | name (l : Label)
  | temp (t : Temp)
  /-- The word in memory at an address. -/
  | mem (addr : Expr)
  | binary (op : BinOp) (lhs rhs : Expr)
  | unary (op : UnOp) (e : Expr)
  /-- A call with the offset of each argument in the outgoing area. -/
  | call (callee : Label) (offsets : List Word) (args : List Expr)
  /-- The value of `e` after the effect of `s`. -/
  | after (s : Stmt) (e : Expr)

/-- A statement of the intermediate code. -/
inductive Stmt where
  | move (dst src : Expr)
  /-- An expression for its effect. -/
  | eval (e : Expr)
  /-- To `pos` on a nonzero condition, to `neg` on zero. -/
  | branch (cond : Expr) (pos neg : Label)
  | jump (l : Label)
  | label (l : Label)
  | seq (ss : List Stmt)

end

instance : Inhabited Expr := ⟨.const 0⟩

instance : Inhabited Stmt := ⟨.seq []⟩

end MmixBackend.Ir
