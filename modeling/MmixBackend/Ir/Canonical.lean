import MmixBackend.Build

/-!
# Canonical code

In canonical code every statement does one thing.  No statement stands inside another statement
or an expression, the operands of binary operators and the arguments of calls are temporaries,
and memory is touched by two kinds of moves only: a load into a temporary and a store of one
temporary at the address in another.

`Stmt.canonize` brings a statement into this form.  Effects stay in the order of evaluation:
operands and arguments from left to right, the address of a store before its value, and a
statement before the expression it belongs to.
-/

namespace MmixBackend.Ir

/-! ## The form -/

/-- A temporary. -/
def Expr.isOperand : Expr → Bool
  | .temp _ => true
  | _ => false

/-- A value that needs no memory and no further statement. -/
def Expr.isValue : Expr → Bool
  | .const _ | .name _ | .temp _ => true
  | .binary _ l r => l.isOperand && r.isOperand
  | .unary _ e => e.isValue
  | .call _ _ args => args.all Expr.isOperand
  | .mem _ | .after .. => false

def Stmt.isCanonical : Stmt → Bool
  | .label _ | .jump _ => true
  | .branch c _ _ => c.isValue
  | .eval e => e.isValue
  | .move (.mem addr) src => addr.isOperand && src.isOperand
  | .move (.temp _) (.mem addr) => addr.isValue
  | .move (.temp _) src => src.isValue
  | .move _ _ => false
  | .seq _ => false

def isCanonical (code : List Stmt) : Bool := code.all Stmt.isCanonical

/-! ## Bringing code into the form -/

mutual

/-- The canonical statements with the effect of a statement.  `loc` is the function it is in. -/
def Stmt.canonize (loc : Location) : Stmt → Build (List Stmt)
  | .seq ss => Stmt.canonizeAll loc ss
  | .label l => return [.label l]
  | .jump l => return [.jump l]
  | .branch c pos neg => do
    let (pre, c) ← c.canonize loc
    return pre ++ [.branch c pos neg]
  | .eval e => do
    let (pre, e) ← e.canonize loc
    return pre ++ [.eval e]
  | .move (.mem addr) src => do
    let a ← Build.newTemp
    let (preA, addr) ← addr.canonize loc
    let v ← Build.newTemp
    let (preV, src) ← src.canonize loc
    Build.note (.store a v)
    return preA ++ .move (.temp a) addr :: (preV ++
      [.move (.temp v) src, .move (.mem (.temp a)) (.temp v)])
  | .move (.temp dst) src => do
    let v ← Build.newTemp
    let (pre, src) ← src.canonize loc
    return pre ++ [.move (.temp v) src, .move (.temp dst) (.temp v)]
  | .move dst _ => Build.defect loc (.moveInto dst)

/-- The canonical statements with the effect of statements in order. -/
def Stmt.canonizeAll (loc : Location) : List Stmt → Build (List Stmt)
  | [] => return []
  | s :: ss => do
    let code ← s.canonize loc
    let rest ← Stmt.canonizeAll loc ss
    return code ++ rest

/-- The canonical statements with the effect of an expression, and the value that is then
left. -/
def Expr.canonize (loc : Location) : Expr → Build (List Stmt × Expr)
  | .const v => return ([], .const v)
  | .name l => return ([], .name l)
  | .temp t => return ([], .temp t)
  | .binary op lhs rhs => do
    let l ← Build.newTemp
    let (preL, lhs) ← lhs.canonize loc
    let r ← Build.newTemp
    let (preR, rhs) ← rhs.canonize loc
    Build.note (.operands l r)
    return (preL ++ .move (.temp l) lhs :: (preR ++ [.move (.temp r) rhs]),
      .binary op (.temp l) (.temp r))
  | .unary op e => do
    let (pre, e) ← e.canonize loc
    return (pre, .unary op e)
  | .call f offsets args => do
    let (pre, args) ← Expr.canonizeArgs loc args
    return (pre, .call f offsets args)
  | .mem addr => do
    let t ← Build.newTemp
    let (pre, addr) ← addr.canonize loc
    Build.note (.load t)
    return (pre ++ [.move (.temp t) (.mem addr)], .temp t)
  | .after s e => do
    let code ← s.canonize loc
    let (pre, e) ← e.canonize loc
    return (code ++ pre, e)

/-- The canonical statements that put arguments into temporaries, and these. -/
def Expr.canonizeArgs (loc : Location) : List Expr → Build (List Stmt × List Expr)
  | [] => return ([], [])
  | a :: as => do
    let t ← Build.newTemp
    let (pre, a) ← a.canonize loc
    let (rest, ts) ← Expr.canonizeArgs loc as
    return (pre ++ .move (.temp t) a :: rest, .temp t :: ts)

end

end MmixBackend.Ir
