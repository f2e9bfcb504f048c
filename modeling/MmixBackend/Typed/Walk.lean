import MmixBackend.Typed.Expr

/-!
# Parts of a typed program

`Expr.within` lists the expressions of a body in the order they are written, an expression
before its parts, and stays outside the functions declared in it; `Expr.throughout` goes into
those as well, after the expression they are declared for.

`Expr.routines` gives the functions declared in a body as trees: each function with the
functions that are declared directly inside it.
-/

namespace MmixBackend.Typed

mutual

/-- An expression and its parts, functions declared in it left out. -/
def Expr.within : Expr → List Expr
  | e@(.atom ..) | e@(.name ..) => [e]
  | e@(.index _ arr idx) => e :: (arr.within ++ idx.within)
  | e@(.field _ base _) => e :: base.within
  | e@(.binary _ _ lhs rhs) => e :: (lhs.within ++ rhs.within)
  | e@(.unary _ _ a) => e :: a.within
  | e@(.deref _ a) => e :: a.within
  | e@(.call _ _ args) => e :: Expr.listWithin args
  | e@(.cast _ _ a) => e :: a.within
  | e@(.block _ body) => e :: Stmt.listWithin body
  | e@(.scope _ a _) => e :: a.within

def Expr.listWithin : List Expr → List Expr
  | [] => []
  | e :: es => e.within ++ Expr.listWithin es

def Stmt.within : Stmt → List Expr
  | .assign _ dst src => dst.within ++ src.within
  | .eval _ e => e.within
  | .cond _ test yes no => test.within ++ Stmt.listWithin yes ++ Stmt.listWithin no
  | .loop _ test body => test.within ++ Stmt.listWithin body

def Stmt.listWithin : List Stmt → List Expr
  | [] => []
  | s :: ss => s.within ++ Stmt.listWithin ss

end

mutual

/-- An expression and its parts, with the bodies of the functions declared in it. -/
def Expr.throughout : Expr → List Expr
  | e@(.atom ..) | e@(.name ..) => [e]
  | e@(.index _ arr idx) => e :: (arr.throughout ++ idx.throughout)
  | e@(.field _ base _) => e :: base.throughout
  | e@(.binary _ _ lhs rhs) => e :: (lhs.throughout ++ rhs.throughout)
  | e@(.unary _ _ a) => e :: a.throughout
  | e@(.deref _ a) => e :: a.throughout
  | e@(.call _ _ args) => e :: Expr.listThroughout args
  | e@(.cast _ _ a) => e :: a.throughout
  | e@(.block _ body) => e :: Stmt.listThroughout body
  | e@(.scope _ a decls) => e :: (a.throughout ++ Decl.listThroughout decls)

def Expr.listThroughout : List Expr → List Expr
  | [] => []
  | e :: es => e.throughout ++ Expr.listThroughout es

def Stmt.throughout : Stmt → List Expr
  | .assign _ dst src => dst.throughout ++ src.throughout
  | .eval _ e => e.throughout
  | .cond _ test yes no =>
    test.throughout ++ Stmt.listThroughout yes ++ Stmt.listThroughout no
  | .loop _ test body => test.throughout ++ Stmt.listThroughout body

def Stmt.listThroughout : List Stmt → List Expr
  | [] => []
  | s :: ss => s.throughout ++ Stmt.listThroughout ss

def Decl.throughout : Decl → List Expr
  | .fn _ body => body.throughout
  | .var _ | .foreign _ => []

def Decl.listThroughout : List Decl → List Expr
  | [] => []
  | d :: ds => d.throughout ++ Decl.listThroughout ds

end

/-! ## Functions within functions -/

/-- A function with the functions declared directly inside it. -/
inductive Routine where
  | mk (head : Head) (body : Option Expr) (inner : List Routine)

mutual

/-- The functions declared directly inside a body: those of a `scope` come before those in the
expression it is for. -/
def Expr.routines : Expr → List Routine
  | .atom .. | .name .. => []
  | .index _ arr idx => arr.routines ++ idx.routines
  | .field _ base _ => base.routines
  | .binary _ _ lhs rhs => lhs.routines ++ rhs.routines
  | .unary _ _ a => a.routines
  | .deref _ a => a.routines
  | .call _ _ args => Expr.listRoutines args
  | .cast _ _ a => a.routines
  | .block _ body => Stmt.listRoutines body
  | .scope _ a decls => Decl.listRoutines decls ++ a.routines

def Expr.listRoutines : List Expr → List Routine
  | [] => []
  | e :: es => e.routines ++ Expr.listRoutines es

def Stmt.routines : Stmt → List Routine
  | .assign _ dst src => dst.routines ++ src.routines
  | .eval _ e => e.routines
  | .cond _ test yes no => test.routines ++ Stmt.listRoutines yes ++ Stmt.listRoutines no
  | .loop _ test body => test.routines ++ Stmt.listRoutines body

def Stmt.listRoutines : List Stmt → List Routine
  | [] => []
  | s :: ss => s.routines ++ Stmt.listRoutines ss

def Decl.routine? : Decl → Option Routine
  | .var _ => none
  | .foreign head => some (.mk head none [])
  | .fn head body => some (.mk head (some body) body.routines)

def Decl.listRoutines : List Decl → List Routine
  | [] => []
  | d :: ds => d.routine?.toList ++ Decl.listRoutines ds

end

/-- The functions declared by a `scope` expression itself, with their bodies. -/
def Expr.declared : Expr → List (Head × Option Expr)
  | .scope _ _ decls => decls.filterMap fun
    | .var _ => none
    | .foreign head => some (head, none)
    | .fn head body => some (head, some body)
  | _ => []

end MmixBackend.Typed
