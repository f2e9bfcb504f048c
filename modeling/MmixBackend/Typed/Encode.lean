import MmixBackend.Json.Basic
import MmixBackend.Typed.Expr

/-!
# Typed programs as JSON

A program is written with every field present.  A choice without content is its name; one with
content is an object whose one member has that name.
-/

namespace MmixBackend.Typed

def tagged (tag : String) (payload : Json) : Json := .obj [(tag, payload)]

def declJson (d : DeclId) : Json := .int d.number.toNat

def nodeJson (n : NodeId) : Json := .int n.number.toNat

def locationJson (l : Location) : Json :=
  .obj [("line", .int l.line.toNat), ("column", .int l.column.toNat)]

mutual

def Ty.json : Ty → Json
  | .void => .str "Void"
  | .char => .str "Char"
  | .int => .str "Int"
  | .bool => .str "Bool"
  | .ptr target => tagged "Ptr" target.json
  | .array elem len => tagged "Array" (.obj [("elem", elem.json), ("len", .int len.toInt)])
  | .record comps => tagged "Record" (.arr (Component.listJson comps))

def Component.listJson : List Component → List Json
  | [] => []
  | ⟨id, name, ty⟩ :: cs =>
    .obj [("id", declJson id), ("name", .str name), ("ty", ty.json)] :: Component.listJson cs

end

def Component.json (c : Component) : Json :=
  .obj [("id", declJson c.id), ("name", .str c.name), ("ty", c.ty.json)]

def Var.json (v : Var) : Json :=
  .obj [("id", declJson v.id), ("name", .str v.name), ("ty", v.ty.json),
    ("loc", locationJson v.loc)]

def Param.json (p : Param) : Json :=
  .obj [("id", declJson p.id), ("name", .str p.name), ("ty", p.ty.json)]

def Atom.json : Atom → Json
  | .void => .str "Void"
  | .nil => .str "Nil"
  | .bool b => tagged "Bool" (.bool b)
  | .char c => tagged "Char" (.int c.toNat)
  | .int v => tagged "Int" (.int v.toInt)
  | .str s => tagged "Str" (.str s)

namespace PrefixOp

def all : List PrefixOp := [not, plus, minus, addressOf, new, del]

def name : PrefixOp → String
  | not => "Not"
  | plus => "Plus"
  | minus => "Minus"
  | addressOf => "AddrOf"
  | new => "New"
  | del => "Del"

def ofName? (s : String) : Option PrefixOp := all.find? (·.name == s)

theorem ofName?_name (op : PrefixOp) : ofName? op.name = some op := by
  cases op <;> rfl

end PrefixOp

def Node.json (n : Node) (kind : Json) : Json :=
  .obj [("id", nodeJson n.id), ("ty", n.ty.json), ("lvalue", .bool n.lvalue),
    ("loc", locationJson n.loc), ("kind", kind)]

def Mark.json (m : Mark) (kind : Json) : Json :=
  .obj [("id", nodeJson m.id), ("loc", locationJson m.loc), ("kind", kind)]

def Head.json (h : Head) (body : Json) : Json :=
  .obj [("id", declJson h.id), ("name", .str h.name), ("params", .arr (h.params.map (·.json))),
    ("ret", h.ret.json), ("body", body), ("loc", locationJson h.loc)]

mutual

def Expr.json : Expr → Json
  | .atom n a => n.json (tagged "Atom" a.json)
  | .name n d => n.json (tagged "Name" (declJson d))
  | .index n arr idx => n.json (tagged "Index" (.obj [("arr", arr.json), ("idx", idx.json)]))
  | .field n base comp =>
    n.json (tagged "Field" (.obj [("rec", base.json), ("comp", declJson comp)]))
  | .binary n op lhs rhs =>
    n.json (tagged "Binary" (.obj [("op", .str op.name), ("lhs", lhs.json), ("rhs", rhs.json)]))
  | .unary n op e =>
    n.json (tagged "Prefix" (.obj [("op", .str op.name), ("expr", e.json)]))
  | .deref n e => n.json (tagged "Deref" e.json)
  | .call n f args =>
    n.json (tagged "Call" (.obj [("fun", declJson f), ("args", .arr (Expr.listJson args))]))
  | .cast n ty e => n.json (tagged "Cast" (.obj [("ty", ty.json), ("expr", e.json)]))
  | .block n body => n.json (tagged "Block" (.arr (Stmt.listJson body)))
  | .scope n e decls =>
    n.json (tagged "Where" (.obj [("expr", e.json), ("decls", .arr (Decl.listJson decls))]))

def Expr.listJson : List Expr → List Json
  | [] => []
  | e :: es => e.json :: Expr.listJson es

def Stmt.json : Stmt → Json
  | .assign m dst src => m.json (tagged "Assign" (.obj [("dst", dst.json), ("src", src.json)]))
  | .eval m e => m.json (tagged "Expr" e.json)
  | .cond m test yes no =>
    m.json (tagged "If" (.obj [("cond", test.json), ("then_branch", .arr (Stmt.listJson yes)),
      ("else_branch", .arr (Stmt.listJson no))]))
  | .loop m test body =>
    m.json (tagged "While" (.obj [("cond", test.json), ("body", .arr (Stmt.listJson body))]))

def Stmt.listJson : List Stmt → List Json
  | [] => []
  | s :: ss => s.json :: Stmt.listJson ss

def Decl.json : Decl → Json
  | .var v => tagged "Var" v.json
  | .foreign head => tagged "Fun" (head.json .null)
  | .fn head body => tagged "Fun" (head.json body.json)

def Decl.listJson : List Decl → List Json
  | [] => []
  | d :: ds => d.json :: Decl.listJson ds

end

def Program.json (p : Program) : Json := .obj [("decls", .arr (Decl.listJson p.decls))]

end MmixBackend.Typed
