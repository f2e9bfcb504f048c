import Mathlib.Algebra.Group.Int.Defs
import Mathlib.Data.List.Forall2
import MmixBackend.Typed.Encode

/-!
# Programs as JSON

`Form` says of a tree and a JSON value that the value is one way to write the tree: which names
an object needs, which it may leave out and what that stands for, how choices are told apart, and
the range of every number.  It asks nothing of an object beyond the names it mentions.

What is written of a tree is one of its ways (`Program.form_json`).
-/

namespace MmixBackend

variable {ms : List (String × Json)} {P : Json → Prop}

namespace Json

/-! ## Shapes of values -/

/-- The values under a name, among the members of an object. -/
def under (name : String) (ms : List (String × Json)) : List Json :=
  ms.filterMap fun m => if m.1 = name then some m.2 else none

/-- An object with a name once, and a value of a given shape there. -/
def At (name : String) (P : Json → Prop) (j : Json) : Prop :=
  ∃ ms v, j = .obj ms ∧ under name ms = [v] ∧ P v

/-- An object with a name once, and a value of a given shape there, or without that name. -/
def AtOr (name : String) (missing : Prop) (P : Json → Prop) (j : Json) : Prop :=
  At name P j ∨ ∃ ms, j = .obj ms ∧ under name ms = [] ∧ missing

/-- A choice without content: its name, alone or over a null. -/
def Choice (name : String) (j : Json) : Prop := j = .str name ∨ j = .obj [(name, .null)]

/-- A choice with content of a given shape. -/
def Tagged (tag : String) (P : Json → Prop) (j : Json) : Prop := ∃ v, j = .obj [(tag, v)] ∧ P v

/-- An array with items of given shapes. -/
def Items (P : List Json → Prop) (j : Json) : Prop := ∃ vs, j = .arr vs ∧ P vs

def Text (s : String) (j : Json) : Prop := j = .str s

/-- An integer, within its bounds. -/
def Number (low high n : Int) (j : Json) : Prop := j = .int n ∧ low ≤ n ∧ n < high

variable {name : String}

@[simp] theorem under_nil : under name [] = [] := rfl

@[simp] theorem under_cons {name k : String} {v : Json} :
    under name ((k, v) :: ms) = if k = name then v :: under name ms else under name ms := by
  rw [under, List.filterMap_cons]
  split <;> simp_all [under]

@[simp] theorem at_obj :
    At name P (.obj ms) ↔ ∃ v, under name ms = [v] ∧ P v := by
  simp [At]

@[simp] theorem atOr_obj {missing : Prop} : AtOr name missing P (.obj ms) ↔
      (∃ v, under name ms = [v] ∧ P v) ∨ under name ms = [] ∧ missing := by
  simp [AtOr]

end Json

open Json (At AtOr Choice Tagged Items Text Number)

/-! ## The format -/

/-- The ways to write a declaration's number. -/
def DeclId.Form (d : DeclId) : Json → Prop := Number 0 (2 ^ 32) d.number.toNat

def NodeId.Form (n : NodeId) : Json → Prop := Number 0 (2 ^ 32) n.number.toNat

def Location.Form (l : Location) (j : Json) : Prop :=
  At "line" (Number 0 (2 ^ 64) l.line.toNat) j ∧ At "column" (Number 0 (2 ^ 64) l.column.toNat) j

/-- The ways in which a value carries a place in the source: left out for the first one. -/
def Location.Along (l : Location) : Json → Prop := AtOr "loc" (l = ⟨0, 0⟩) l.Form

def Word.Form (w : Word) : Json → Prop := Number (-2 ^ 63) (2 ^ 63) w.toInt

namespace Typed

mutual

def Ty.Form : Ty → Json → Prop
  | .void => Choice "Void"
  | .char => Choice "Char"
  | .int => Choice "Int"
  | .bool => Choice "Bool"
  | .ptr target => Tagged "Ptr" target.Form
  | .array elem len => Tagged "Array" fun p => At "elem" elem.Form p ∧ At "len" (Word.Form len) p
  | .record comps => Tagged "Record" (Items (Component.Forms comps))

/-- The ways to write the components of a record type. -/
def Component.Forms : List Component → List Json → Prop
  | [], js => js = []
  | ⟨id, name, ty⟩ :: cs, js => ∃ j js', js = j :: js' ∧
      (At "id" id.Form j ∧ At "name" (Text name) j ∧ At "ty" ty.Form j) ∧ Component.Forms cs js'

end

def Component.Form (c : Component) (j : Json) : Prop :=
  At "id" c.id.Form j ∧ At "name" (Text c.name) j ∧ At "ty" c.ty.Form j

def Var.Form (v : Var) (j : Json) : Prop :=
  At "id" v.id.Form j ∧ At "name" (Text v.name) j ∧ At "ty" v.ty.Form j ∧ v.loc.Along j

def Param.Form (p : Param) (j : Json) : Prop :=
  At "id" p.id.Form j ∧ At "name" (Text p.name) j ∧ At "ty" p.ty.Form j

def Atom.Form : Atom → Json → Prop
  | .void => Choice "Void"
  | .nil => Choice "Nil"
  | .bool b => Tagged "Bool" (· = .bool b)
  | .char c => Tagged "Char" (Number 0 (2 ^ 8) c.toNat)
  | .int v => Tagged "Int" (Word.Form v)
  | .str s => Tagged "Str" (Text s)

/-- The ways to write what an expression carries.  The mark of a memory cell is left out for
something that is none. -/
def Node.Form (n : Node) (j : Json) : Prop :=
  At "id" n.id.Form j ∧ At "ty" n.ty.Form j ∧
    AtOr "lvalue" (n.lvalue = false) (· = .bool n.lvalue) j ∧ n.loc.Along j

def Mark.Form (m : Mark) (j : Json) : Prop := At "id" m.id.Form j ∧ m.loc.Along j

/-- The ways to write a function, its body apart. -/
def Head.Form (h : Head) (j : Json) : Prop :=
  At "id" h.id.Form j ∧ At "name" (Text h.name) j ∧
    At "params" (Items (List.Forall₂ Param.Form h.params)) j ∧ At "ret" h.ret.Form j ∧ h.loc.Along j

/-- The ways to write an expression of a kind. -/
def Node.Kind (n : Node) (tag : String) (P : Json → Prop) (j : Json) : Prop :=
  n.Form j ∧ At "kind" (Tagged tag P) j

def Mark.Kind (m : Mark) (tag : String) (P : Json → Prop) (j : Json) : Prop :=
  m.Form j ∧ At "kind" (Tagged tag P) j

mutual

/-- The ways to write an expression. -/
def Expr.Form : Expr → Json → Prop
  | .atom n a => n.Kind "Atom" a.Form
  | .name n d => n.Kind "Name" d.Form
  | .index n arr idx => n.Kind "Index" fun p => At "arr" arr.Form p ∧ At "idx" idx.Form p
  | .field n base comp => n.Kind "Field" fun p => At "rec" base.Form p ∧ At "comp" comp.Form p
  | .binary n op lhs rhs => n.Kind "Binary" fun p =>
    At "op" (Choice op.name) p ∧ At "lhs" lhs.Form p ∧ At "rhs" rhs.Form p
  | .unary n op e => n.Kind "Prefix" fun p => At "op" (Choice op.name) p ∧ At "expr" e.Form p
  | .deref n e => n.Kind "Deref" e.Form
  | .call n f args => n.Kind "Call" fun p =>
    At "fun" f.Form p ∧ At "args" (Items (Expr.Forms args)) p
  | .cast n ty e => n.Kind "Cast" fun p => At "ty" ty.Form p ∧ At "expr" e.Form p
  | .block n body => n.Kind "Block" (Items (Stmt.Forms body))
  | .scope n e decls => n.Kind "Where" fun p =>
    At "expr" e.Form p ∧ At "decls" (Items (Decl.Forms decls)) p

def Expr.Forms : List Expr → List Json → Prop
  | [], js => js = []
  | e :: es, js => ∃ j js', js = j :: js' ∧ e.Form j ∧ Expr.Forms es js'

/-- The ways to write a statement. -/
def Stmt.Form : Stmt → Json → Prop
  | .assign m dst src => m.Kind "Assign" fun p => At "dst" dst.Form p ∧ At "src" src.Form p
  | .eval m e => m.Kind "Expr" e.Form
  | .cond m test yes no => m.Kind "If" fun p => At "cond" test.Form p ∧
      At "then_branch" (Items (Stmt.Forms yes)) p ∧ At "else_branch" (Items (Stmt.Forms no)) p
  | .loop m test body => m.Kind "While" fun p =>
    At "cond" test.Form p ∧ At "body" (Items (Stmt.Forms body)) p

def Stmt.Forms : List Stmt → List Json → Prop
  | [], js => js = []
  | s :: ss, js => ∃ j js', js = j :: js' ∧ s.Form j ∧ Stmt.Forms ss js'

/-- The ways to write a declaration.  A function that has no body leaves it out, or has a null. -/
def Decl.Form : Decl → Json → Prop
  | .var v => Tagged "Var" v.Form
  | .foreign head => Tagged "Fun" fun p => head.Form p ∧ AtOr "body" True (· = .null) p
  | .fn head body => Tagged "Fun" fun p => head.Form p ∧ At "body" body.Form p

def Decl.Forms : List Decl → List Json → Prop
  | [], js => js = []
  | d :: ds, js => ∃ j js', js = j :: js' ∧ d.Form j ∧ Decl.Forms ds js'

end

/-- The ways to write a program. -/
def Program.Form (p : Program) : Json → Prop := At "decls" (Items (Decl.Forms p.decls))

/-! ## Writing -/

theorem declJson_form (d : DeclId) : d.Form (declJson d) :=
  ⟨rfl, Int.natCast_nonneg _, Int.ofNat_lt.mpr d.number.toNat_lt⟩

theorem nodeJson_form (n : NodeId) : n.Form (nodeJson n) :=
  ⟨rfl, Int.natCast_nonneg _, Int.ofNat_lt.mpr n.number.toNat_lt⟩

theorem word_form (w : Word) : Word.Form w (.int w.toInt) :=
  ⟨rfl, w.le_toInt, w.toInt_lt⟩

theorem locationJson_form (l : Location) : l.Form (locationJson l) := by
  have hnumber : ∀ n : UInt64, Number 0 (2 ^ 64) n.toNat (.int n.toNat) := fun n =>
    ⟨rfl, Int.natCast_nonneg _, Int.ofNat_lt.mpr n.toNat_lt⟩
  simpa [Location.Form, locationJson] using And.intro (hnumber l.line) (hnumber l.column)

mutual

theorem Ty.form_json : ∀ ty : Ty, ty.Form ty.json
  | .void | .char | .int | .bool => .inl rfl
  | .ptr target => ⟨_, rfl, Ty.form_json target⟩
  | .array elem len => ⟨_, rfl, by simp [Ty.form_json elem, word_form]⟩
  | .record comps => ⟨_, rfl, _, rfl, Component.forms_json comps⟩

theorem Component.forms_json : ∀ cs : List Component, Component.Forms cs (Component.listJson cs)
  | [] => rfl
  | ⟨id, name, ty⟩ :: cs => ⟨_, _, rfl,
      by simp [declJson_form, Text, Ty.form_json ty], Component.forms_json cs⟩

end

theorem along_json (l : Location) (h : Json.under "loc" ms = [locationJson l]) : l.Along (.obj ms) := by
  simp [Location.Along, h, locationJson_form]

theorem Var.form_json (v : Var) : v.Form v.json := by
  simp [Var.Form, Var.json, along_json, declJson_form, Text, Ty.form_json]

theorem Param.form_json (p : Param) : p.Form p.json := by
  simp [Param.Form, Param.json, declJson_form, Text, Ty.form_json]

theorem Atom.form_json : ∀ a : Atom, a.Form a.json
  | .void | .nil => .inl rfl
  | .bool _ => ⟨_, rfl, rfl⟩
  | .char c => ⟨_, rfl, rfl, Int.natCast_nonneg _, Int.ofNat_lt.mpr c.toNat_lt⟩
  | .int v => ⟨_, rfl, word_form v⟩
  | .str _ => ⟨_, rfl, rfl⟩

theorem Node.form_json (n : Node) {tag : String} {p : Json} (h : P p) :
    n.Kind tag P (n.json (tagged tag p)) := by
  simp [Node.Kind, Node.Form, Node.json, along_json, nodeJson_form, Ty.form_json, tagged, Tagged, h]

theorem Mark.form_json (m : Mark) {tag : String} {p : Json} (h : P p) :
    m.Kind tag P (m.json (tagged tag p)) := by
  simp [Mark.Kind, Mark.Form, Mark.json, along_json, nodeJson_form, tagged, Tagged, h]

theorem Head.form_json (h : Head) (body : Json) : h.Form (h.json body) := by
  have hparams : List.Forall₂ Param.Form h.params (h.params.map Param.json) := by
    rw [List.forall₂_map_right_iff, List.forall₂_same]
    exact fun p _ => p.form_json
  simp [Head.Form, Head.json, along_json, declJson_form, Text, Items, hparams, Ty.form_json]

mutual

theorem Expr.form_json : ∀ e : Expr, e.Form e.json
  | .atom n a => n.form_json a.form_json
  | .name n d => n.form_json (declJson_form d)
  | .index n arr idx => n.form_json (by simp [arr.form_json, idx.form_json])
  | .field n base comp => n.form_json (by simp [base.form_json, declJson_form])
  | .binary n op lhs rhs => n.form_json (by simp [Choice, lhs.form_json, rhs.form_json])
  | .unary n op e => n.form_json (by simp [Choice, e.form_json])
  | .deref n e => n.form_json e.form_json
  | .call n f args => n.form_json (by simp [declJson_form, Items, Expr.forms_json args])
  | .cast n ty e => n.form_json (by simp [ty.form_json, e.form_json])
  | .block n body => n.form_json ⟨_, rfl, Stmt.forms_json body⟩
  | .scope n e decls => n.form_json (by simp [e.form_json, Items, Decl.forms_json decls])
termination_by structural e => e

theorem Expr.forms_json : ∀ es : List Expr, Expr.Forms es (Expr.listJson es)
  | [] => rfl
  | e :: es => ⟨_, _, rfl, e.form_json, Expr.forms_json es⟩
termination_by structural es => es

theorem Stmt.form_json : ∀ s : Stmt, s.Form s.json
  | .assign m dst src => m.form_json (by simp [dst.form_json, src.form_json])
  | .eval m e => m.form_json e.form_json
  | .cond m test yes no => m.form_json (by
      simp [test.form_json, Items, Stmt.forms_json yes, Stmt.forms_json no])
  | .loop m test body => m.form_json (by simp [test.form_json, Items, Stmt.forms_json body])
termination_by structural s => s

theorem Stmt.forms_json : ∀ ss : List Stmt, Stmt.Forms ss (Stmt.listJson ss)
  | [] => rfl
  | s :: ss => ⟨_, _, rfl, s.form_json, Stmt.forms_json ss⟩
termination_by structural ss => ss

theorem Decl.form_json : ∀ d : Decl, d.Form d.json
  | .var v => ⟨_, rfl, v.form_json⟩
  | .foreign head => ⟨_, rfl, head.form_json .null, by simp [Head.json]⟩
  | .fn head body => ⟨_, rfl, head.form_json body.json, by simp [Head.json, body.form_json]⟩
termination_by structural d => d

theorem Decl.forms_json : ∀ ds : List Decl, Decl.Forms ds (Decl.listJson ds)
  | [] => rfl
  | d :: ds => ⟨_, _, rfl, d.form_json, Decl.forms_json ds⟩
termination_by structural ds => ds

end

theorem Program.form_json (p : Program) : p.Form p.json := by
  simp [Program.Form, Program.json, Items, Decl.forms_json]

end Typed

end MmixBackend
