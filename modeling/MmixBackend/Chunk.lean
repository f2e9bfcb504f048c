import MmixBackend.Frame
import MmixBackend.Ir.Canonical
import MmixBackend.Lowering
import MmixBackend.Text.Escaped

/-!
# Chunks

A program falls into chunks: the code of each function that has a body, and the data of each
variable at top level and of each string literal.  The code of a chunk is linear: it starts at
its entry label, ends with a jump to its exit label, and every branch falls through on zero,
because the label it goes to then is the next statement.
-/

namespace MmixBackend

/-- The code of a function. -/
structure CodeChunk where
  name : String
  frame : Frame
  stmts : List Ir.Stmt
  entry : Label
  exit : Label
  loc : Location := {}
  deriving Inhabited

/-- The data of a variable or a literal. -/
structure DataChunk where
  label : Label
  size : Word
  init : Option String := none
  deriving Repr, Inhabited

/-- The chunks of a program. -/
structure Chunks where
  code : List CodeChunk := []
  data : List DataChunk := []
  deriving Inhabited

namespace Chunks

def append (a b : Chunks) : Chunks := { code := a.code ++ b.code, data := a.data ++ b.data }

instance : Append Chunks := ⟨append⟩

def find? (c : Chunks) (name : String) : Option CodeChunk := c.code.find? (·.name == name)

end Chunks

/-! ## Text -/

def DataChunk.line (names : Names) (d : DataChunk) : String :=
  let init := match d.init with
    | some s => " \"" ++ Text.escape s ++ "\""
    | none => ""
  "DATA " ++ names.textOf d.label ++ " [" ++ Word.text d.size ++ "]" ++ init

/-- A code chunk: a line about it, then its statements. -/
def CodeChunk.lines (names : Names) (c : CodeChunk) : List String :=
  let head := "CODE " ++ c.name ++ " (" ++ names.textOf c.frame.label ++ ") entry=" ++
    names.textOf c.entry ++ " exit=" ++ names.textOf c.exit ++ " frame=" ++
    Word.text c.frame.size ++ " fp=" ++ c.frame.fp.text ++ " rv=" ++ c.frame.rv.text
  head :: (c.stmts.flatMap (·.lines names)).map ("  " ++ ·)

def Chunks.lines (names : Names) (c : Chunks) : List String :=
  c.data.map (·.line names) ++ c.code.flatMap (·.lines names)

/-! ## Linear code -/

/-- Gives every branch a label of its own to fall through to, from which a jump goes to where
the branch went on zero. -/
def linearize : List Ir.Stmt → Build (List Ir.Stmt)
  | [] => return []
  | .branch c pos neg :: ss => do
    let fall ← Build.newLabel
    let rest ← linearize ss
    return .branch c pos fall :: .label fall :: .jump neg :: rest
  | s :: ss => do
    let rest ← linearize ss
    return s :: rest

open Typed

def DataChunk.ofAccess? : Access → Option DataChunk
  | .absolute label size init => some { label, size, init }
  | .relative .. => none

def Typed.Expr.literalChunk? (layout : Layout) : Expr → Option DataChunk
  | .atom node (.str _) => layout.literals[node.id]? >>= DataChunk.ofAccess?
  | _ => none

def CodeChunk.build (layout : Layout) (code : Lowered) (head : Head) (body : Expr) :
    Build CodeChunk := do
  let frame ← match layout.frames[head.id]? with
    | some frame => pure frame
    | none => Build.defect head.loc (.missingFrame head.name)
  let value ← match code.exprs[body.id]? with
    | some value => pure value
    | none => Build.defect head.loc (.notLowered head.name)
  let entry ← Build.newLabel
  let exit ← Build.newLabel
  let flat ← (Ir.Stmt.move (.temp frame.rv) value).canonize head.loc
  let stmts ← linearize (.label entry :: flat ++ [.jump exit])
  Build.note (.linear head.name stmts.length)
  return { name := head.name, frame, stmts, entry, exit, loc := head.loc }

mutual

/-- The chunks of a function: its literals, the chunks of the functions inside it, its code. -/
def Typed.Routine.chunks (layout : Layout) (code : Lowered) : Routine → Build Chunks
  | .mk _ none _ => return {}
  | .mk head (some body) inner => do
    let data := body.within.filterMap (·.literalChunk? layout)
    let inside ← Typed.Routine.listChunks layout code inner
    let chunk ← CodeChunk.build layout code head body
    return { data } ++ inside ++ { code := [chunk] }

def Typed.Routine.listChunks (layout : Layout) (code : Lowered) : List Routine → Build Chunks
  | [] => return {}
  | r :: rs => do
    let c ← r.chunks layout code
    let cs ← Typed.Routine.listChunks layout code rs
    return c ++ cs

end

def Typed.Decl.chunks (layout : Layout) (code : Lowered) : Decl → Build Chunks
  | .var v => return { data := (layout.accesses[v.id]? >>= DataChunk.ofAccess?).toList }
  | .foreign _ => return {}
  | .fn head body => (Routine.mk head (some body) body.routines).chunks layout code

def Typed.Decl.listChunks (layout : Layout) (code : Lowered) : List Decl → Build Chunks
  | [] => return {}
  | d :: ds => do
    let c ← d.chunks layout code
    let cs ← Typed.Decl.listChunks layout code ds
    return c ++ cs

def Typed.Program.chunks (p : Program) (layout : Layout) (code : Lowered) : Build Chunks :=
  Typed.Decl.listChunks layout code p.decls

end MmixBackend
