import MmixBackend.Typed.Encode

/-!
# Typed programs from JSON

Reading is strict about what a program needs and lenient about the rest: members of unknown name
are passed over, a place in the source, the mark of a memory cell and a body may be missing, and
a choice without content may also be written as an object with a null.  A member that is needed
must not be repeated, and a number has to be an integer in range.

The members of a record are read by name only.  A record written as an array, with its members by
position, is left out.
-/

namespace MmixBackend.Typed

def declOf? (j : Json) : Option DeclId := (j.nat? UInt32.size).map fun n => ⟨UInt32.ofNat n⟩

def nodeOf? (j : Json) : Option NodeId := (j.nat? UInt32.size).map fun n => ⟨UInt32.ofNat n⟩

def locationOf? (j : Json) : Option Location := do
  let ⟨line, _⟩ ← j.field "line"
  let ⟨column, _⟩ ← j.field "column"
  return { line := UInt64.ofNat (← line.nat? UInt64.size),
           column := UInt64.ofNat (← column.nat? UInt64.size) }

/-- The member with a given decoding, or a default if it is missing. -/
def optional {α : Type} (j : Json) (name : String) (default : α) (decode : Json → Option α) :
    Option α := do
  match ← j.field? name with
  | some ⟨v, _⟩ => decode v
  | none => return default

def locOf? (j : Json) : Option Location := optional j "loc" {} locationOf?

def nameOf? (j : Json) : Option String := do
  let ⟨name, _⟩ ← j.field "name"
  name.text?

def idOf? (j : Json) : Option DeclId := do
  let ⟨id, _⟩ ← j.field "id"
  declOf? id

def Ty.ofName? (s : String) : Option Ty :=
  if s = "Void" then some .void
  else if s = "Char" then some .char
  else if s = "Int" then some .int
  else if s = "Bool" then some .bool
  else none

mutual

def Ty.ofJson? (j : Json) : Option Ty :=
  match j.unitVariant >>= Ty.ofName? with
  | some ty => some ty
  | none => do
    let (tag, ⟨payload, _⟩) ← j.variant
    if tag = "Ptr" then return .ptr (← Ty.ofJson? payload)
    else if tag = "Array" then
      let ⟨elem, _⟩ ← payload.field "elem"
      let ⟨len, _⟩ ← payload.field "len"
      return .array (← Ty.ofJson? elem) (← len.word?)
    else if tag = "Record" then
      let items ← payload.items
      return .record (← items.mapM fun ⟨c, _⟩ => Component.ofJson? c)
    else none
termination_by sizeOf j

def Component.ofJson? (j : Json) : Option Component := do
  let id ← idOf? j
  let name ← nameOf? j
  let ⟨ty, _⟩ ← j.field "ty"
  return ⟨id, name, ← Ty.ofJson? ty⟩
termination_by sizeOf j

end

def tyOf? (j : Json) : Option Ty := do
  let ⟨ty, _⟩ ← j.field "ty"
  Ty.ofJson? ty

def Var.ofJson? (j : Json) : Option Var := do
  return { id := ← idOf? j, name := ← nameOf? j, ty := ← tyOf? j, loc := ← locOf? j }

def Param.ofJson? (j : Json) : Option Param := do
  return { id := ← idOf? j, name := ← nameOf? j, ty := ← tyOf? j }

def Atom.ofJson? (j : Json) : Option Atom :=
  match j.unitVariant with
  | some "Void" => some .void
  | some "Nil" => some .nil
  | _ => do
    let (tag, ⟨v, _⟩) ← j.variant
    if tag = "Bool" then return .bool (← v.bool?)
    else if tag = "Char" then return .char (UInt8.ofNat (← v.nat? 256))
    else if tag = "Int" then return .int (← v.word?)
    else if tag = "Str" then return .str (← v.text?)
    else none

def Node.ofJson? (j : Json) : Option Node := do
  let ⟨id, _⟩ ← j.field "id"
  return { id := ← nodeOf? id, ty := ← tyOf? j, lvalue := ← optional j "lvalue" false Json.bool?,
           loc := ← locOf? j }

def Mark.ofJson? (j : Json) : Option Mark := do
  let ⟨id, _⟩ ← j.field "id"
  return { id := ← nodeOf? id, loc := ← locOf? j }

def Head.ofJson? (j : Json) : Option Head := do
  let ⟨params, _⟩ ← j.field "params"
  let params ← params.items
  let ⟨ret, _⟩ ← j.field "ret"
  return { id := ← idOf? j, name := ← nameOf? j,
           params := ← params.mapM fun ⟨p, _⟩ => Param.ofJson? p,
           ret := ← Ty.ofJson? ret, loc := ← locOf? j }

def declAt? (j : Json) (name : String) : Option DeclId := do
  let ⟨d, _⟩ ← j.field name
  declOf? d

def binOpAt? (j : Json) (name : String) : Option BinOp := do
  let ⟨op, _⟩ ← j.field name
  BinOp.ofName? (← op.unitVariant)

def prefixOpAt? (j : Json) (name : String) : Option PrefixOp := do
  let ⟨op, _⟩ ← j.field name
  PrefixOp.ofName? (← op.unitVariant)

mutual

def Expr.ofJson? (j : Json) : Option Expr := do
  let n ← Node.ofJson? j
  let ⟨kind, _⟩ ← j.field "kind"
  let (tag, ⟨p, _⟩) ← kind.variant
  if tag = "Atom" then return .atom n (← Atom.ofJson? p)
  else if tag = "Name" then return .name n (← declOf? p)
  else if tag = "Index" then
    let ⟨arr, _⟩ ← p.field "arr"
    let ⟨idx, _⟩ ← p.field "idx"
    return .index n (← Expr.ofJson? arr) (← Expr.ofJson? idx)
  else if tag = "Field" then
    let ⟨base, _⟩ ← p.field "rec"
    return .field n (← Expr.ofJson? base) (← declAt? p "comp")
  else if tag = "Binary" then
    let ⟨lhs, _⟩ ← p.field "lhs"
    let ⟨rhs, _⟩ ← p.field "rhs"
    return .binary n (← binOpAt? p "op") (← Expr.ofJson? lhs) (← Expr.ofJson? rhs)
  else if tag = "Prefix" then
    let ⟨e, _⟩ ← p.field "expr"
    return .unary n (← prefixOpAt? p "op") (← Expr.ofJson? e)
  else if tag = "Deref" then return .deref n (← Expr.ofJson? p)
  else if tag = "Call" then
    let ⟨args, _⟩ ← p.field "args"
    let args ← args.items
    return .call n (← declAt? p "fun") (← args.mapM fun ⟨a, _⟩ => Expr.ofJson? a)
  else if tag = "Cast" then
    let ⟨e, _⟩ ← p.field "expr"
    return .cast n (← tyOf? p) (← Expr.ofJson? e)
  else if tag = "Block" then
    let body ← p.items
    return .block n (← body.mapM fun ⟨s, _⟩ => Stmt.ofJson? s)
  else if tag = "Where" then
    let ⟨e, _⟩ ← p.field "expr"
    let ⟨decls, _⟩ ← p.field "decls"
    let decls ← decls.items
    return .scope n (← Expr.ofJson? e) (← decls.mapM fun ⟨d, _⟩ => Decl.ofJson? d)
  else none
termination_by sizeOf j
decreasing_by all_goals omega

def Stmt.ofJson? (j : Json) : Option Stmt := do
  let m ← Mark.ofJson? j
  let ⟨kind, _⟩ ← j.field "kind"
  let (tag, ⟨p, _⟩) ← kind.variant
  if tag = "Assign" then
    let ⟨dst, _⟩ ← p.field "dst"
    let ⟨src, _⟩ ← p.field "src"
    return .assign m (← Expr.ofJson? dst) (← Expr.ofJson? src)
  else if tag = "Expr" then return .eval m (← Expr.ofJson? p)
  else if tag = "If" then
    let ⟨test, _⟩ ← p.field "cond"
    let ⟨yes, _⟩ ← p.field "then_branch"
    let ⟨no, _⟩ ← p.field "else_branch"
    let yes ← yes.items
    let no ← no.items
    return .cond m (← Expr.ofJson? test) (← yes.mapM fun ⟨s, _⟩ => Stmt.ofJson? s)
      (← no.mapM fun ⟨s, _⟩ => Stmt.ofJson? s)
  else if tag = "While" then
    let ⟨test, _⟩ ← p.field "cond"
    let ⟨body, _⟩ ← p.field "body"
    let body ← body.items
    return .loop m (← Expr.ofJson? test) (← body.mapM fun ⟨s, _⟩ => Stmt.ofJson? s)
  else none
termination_by sizeOf j
decreasing_by all_goals omega

def Decl.ofJson? (j : Json) : Option Decl := do
  let (tag, ⟨p, _⟩) ← j.variant
  if tag = "Var" then return .var (← Var.ofJson? p)
  else if tag = "Fun" then
    let head ← Head.ofJson? p
    match ← p.field? "body" with
    | none => return .foreign head
    | some ⟨.null, _⟩ => return .foreign head
    | some ⟨body, _⟩ => return .fn head (← Expr.ofJson? body)
  else none
termination_by sizeOf j
decreasing_by all_goals omega

end

def Program.ofJson? (j : Json) : Option Program := do
  let ⟨decls, _⟩ ← j.field "decls"
  let decls ← decls.items
  return ⟨← decls.mapM fun ⟨d, _⟩ => Decl.ofJson? d⟩

end MmixBackend.Typed
