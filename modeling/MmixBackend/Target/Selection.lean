import MmixBackend.Chunk
import MmixBackend.Target.Instr

/-!
# Selecting instructions

Each node of the intermediate code has one rule.  The rule for an expression gives instructions
and the temporary that holds the value after them; operands come from left to right.  `window`
is the number of registers that a call has to leave alone.
-/

namespace MmixBackend.Selection

open Ir

/-- Largest offset that fits into a store. -/
def maxImmediate : Word := 255

/-- How a comparison of two operands is tested. -/
def testOf : BinOp → Test
  | .eq => .zero
  | .ne => .nonzero
  | .lt => .negative
  | .gt => .positive
  | .le => .nonpositive
  | _ => .nonnegative

/-- The operation of an operator that has one of its own. -/
def arithOf : BinOp → Arith
  | .or => .or
  | .and => .and
  | .add => .add
  | .sub => .sub
  | .mul => .mul
  | _ => .div

def binary (op : BinOp) (l r t : Temp) : List Instr :=
  if op.isRelational then
    [.oper .compare [l, r] [t] [], .oper (.test (testOf op)) [t] [t] []]
  else if op = .mod then
    [.oper (.arith .div) [l, r] [t] [], .oper .remainder [] [t] []]
  else [.oper (.arith (arithOf op)) [l, r] [t] []]

def unary : UnOp → Op
  | .neg => .negate
  | .not => .flip

def constant (v : Word) : Build (List Instr × Temp) := do
  let t ← Build.newTemp
  return (loadConstant t v, t)

mutual

/-- Instructions for an expression, and the temporary with its value. -/
def expr (window : Nat) (loc : Location) : Expr → Build (List Instr × Temp)
  | .const v => constant v
  | .name l => do
    let t ← Build.newTemp
    let name ← Build.textOf l
    return ([.oper (.address name) [] [t] []], t)
  | .temp t => return ([], t)
  | .mem addr => do
    let (code, a) ← expr window loc addr
    let t ← Build.newTemp
    return (code ++ [.move .load t a], t)
  | .binary op lhs rhs => do
    let (codeL, l) ← expr window loc lhs
    let (codeR, r) ← expr window loc rhs
    let t ← Build.newTemp
    return (codeL ++ codeR ++ binary op l r t, t)
  | .unary op e => do
    let (code, v) ← expr window loc e
    let t ← Build.newTemp
    return (code ++ [.oper (unary op) [v] [t] []], t)
  | .call f offsets args => do
    let code ← arguments window loc offsets args
    let name ← Build.textOf f
    let t ← Build.newTemp
    return (code ++ [.oper (.call window name) [] [] [f], .oper .result [] [t] []], t)
  | .after .. => Build.defect loc .nestedStatement

/-- Instructions that store arguments at their offsets, as many as there are of both. -/
def arguments (window : Nat) (loc : Location) : List Word → List Expr → Build (List Instr)
  | offset :: offsets, arg :: args => do
    let (code, v) ← expr window loc arg
    let stored ← if offset ≤ maxImmediate then pure [Instr.oper (.storeArg offset) [v] [] []]
      else do
        let (codeO, o) ← constant offset
        pure (codeO ++ [.oper .storeArgSum [v, o] [] []])
    let rest ← arguments window loc offsets args
    return code ++ stored ++ rest
  | _, _ => return []

end

/-- Instructions for a move.  From memory to memory goes through a new temporary. -/
def move (window : Nat) (loc : Location) : Expr → Expr → Build (List Instr)
  | .mem dst, .mem src => do
    let (codeS, s) ← expr window loc src
    let (codeD, d) ← expr window loc dst
    let v ← Build.newTemp
    return codeS ++ codeD ++ [.move .load v s, .oper .store [v, d] [] []]
  | .mem dst, src => do
    let (codeS, v) ← expr window loc src
    let (codeD, d) ← expr window loc dst
    return codeS ++ codeD ++ [.oper .store [v, d] [] []]
  | .temp d, .mem src => do
    let (code, s) ← expr window loc src
    return code ++ [.move .load d s]
  | .temp d, src => do
    let (code, v) ← expr window loc src
    return code ++ [.move .copy d v]
  | _, _ => Build.defect loc .badTarget

mutual

def stmt (window : Nat) (loc : Location) : Stmt → Build (List Instr)
  | .move dst src => move window loc dst src
  | .eval e => do
    let (code, _) ← expr window loc e
    return code
  | .branch c pos neg => do
    let (code, v) ← expr window loc c
    let name ← Build.textOf pos
    return code ++ [.oper (.branch name) [v] [] [pos, neg]]
  | .jump l => do
    let name ← Build.textOf l
    return [.oper (.jump name) [] [] [l]]
  | .label l => return [.label l]
  | .seq ss => stmts window loc ss

def stmts (window : Nat) (loc : Location) : List Stmt → Build (List Instr)
  | [] => return []
  | s :: ss => do
    let code ← stmt window loc s
    let rest ← stmts window loc ss
    return code ++ rest

end

end MmixBackend.Selection

namespace MmixBackend

def CodeChunk.select (window : Nat) (c : CodeChunk) : Build Code := do
  let instrs ← Selection.stmts window c.loc c.stmts
  Build.note (.selected c.name instrs.length)
  return { name := c.name, frame := c.frame, entry := c.entry, exit := c.exit, instrs, loc := c.loc }

end MmixBackend
