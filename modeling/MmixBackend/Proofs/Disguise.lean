import MmixBackend.Layout

/-!
# Programs in disguise

The nodes and declarations of a typed program carry numbers, nodes and functions carry places in
the source, and expressions carry a mark that tells whether they denote memory.  A `Disguise`
replaces all of these; everything else of a program stays, the names, the types and the shape.

The functions that go over a program commute with disguises: the parts of a disguised program
are the disguised parts, in the same order.
-/

namespace MmixBackend.Typed

/-- Other numbers, places and marks for the parts of a program. -/
structure Disguise where
  node : NodeId → NodeId := id
  decl : DeclId → DeclId := id
  loc : Location → Location := id
  lvalue : Bool → Bool := id

/-- Different numbers stay different. -/
structure Disguise.Faithful (f : Disguise) : Prop where
  node : ∀ {a b}, f.node a = f.node b → a = b
  decl : ∀ {a b}, f.decl a = f.decl b → a = b

/-! ## Types -/

mutual

/-- A type with other numbers for the components of its records. -/
def Ty.disguise (f : Disguise) : Ty → Ty
  | .void => .void
  | .char => .char
  | .int => .int
  | .bool => .bool
  | .ptr target => .ptr (target.disguise f)
  | .array elem len => .array (elem.disguise f) len
  | .record comps => .record (Component.listDisguise f comps)

def Component.listDisguise (f : Disguise) : List Component → List Component
  | [] => []
  | ⟨id, name, ty⟩ :: cs => ⟨f.decl id, name, ty.disguise f⟩ :: Component.listDisguise f cs

end

mutual

@[simp] theorem Ty.size_disguise (f : Disguise) : ∀ ty : Ty, (ty.disguise f).size = ty.size
  | .void | .char | .int | .bool | .ptr _ => rfl
  | .array elem len => by simp only [Ty.disguise, Ty.size, Ty.size_disguise f elem]
  | .record comps => Component.sizes_disguise f 0 comps

theorem Component.sizes_disguise (f : Disguise) : ∀ (sum : Word) (cs : List Component),
    Component.sizes sum (Component.listDisguise f cs) = Component.sizes sum cs
  | _, [] => rfl
  | sum, ⟨_, _, ty⟩ :: cs => by
    simp only [Component.listDisguise, Component.sizes, Ty.size_disguise f ty,
      Component.sizes_disguise f _ cs]

end

@[simp] theorem Ty.isChar_disguise (f : Disguise) (ty : Ty) :
    (ty.disguise f).isChar = ty.isChar := by
  cases ty <;> rfl

/-! ## Programs -/

def Node.disguise (f : Disguise) (n : Node) : Node :=
  { id := f.node n.id, ty := n.ty.disguise f, lvalue := f.lvalue n.lvalue, loc := f.loc n.loc }

def Mark.disguise (f : Disguise) (m : Mark) : Mark := { id := f.node m.id, loc := f.loc m.loc }

def Var.disguise (f : Disguise) (v : Var) : Var :=
  { id := f.decl v.id, name := v.name, ty := v.ty.disguise f, loc := f.loc v.loc }

def Param.disguise (f : Disguise) (p : Param) : Param :=
  { id := f.decl p.id, name := p.name, ty := p.ty.disguise f }

def Head.disguise (f : Disguise) (h : Head) : Head :=
  { id := f.decl h.id, name := h.name, params := h.params.map (·.disguise f),
    ret := h.ret.disguise f, loc := f.loc h.loc }

mutual

def Expr.disguise (f : Disguise) : Expr → Expr
  | .atom n a => .atom (n.disguise f) a
  | .name n d => .name (n.disguise f) (f.decl d)
  | .index n arr idx => .index (n.disguise f) (arr.disguise f) (idx.disguise f)
  | .field n base comp => .field (n.disguise f) (base.disguise f) (f.decl comp)
  | .binary n op lhs rhs => .binary (n.disguise f) op (lhs.disguise f) (rhs.disguise f)
  | .unary n op e => .unary (n.disguise f) op (e.disguise f)
  | .deref n e => .deref (n.disguise f) (e.disguise f)
  | .call n callee args => .call (n.disguise f) (f.decl callee) (Expr.listDisguise f args)
  | .cast n ty e => .cast (n.disguise f) (ty.disguise f) (e.disguise f)
  | .block n body => .block (n.disguise f) (Stmt.listDisguise f body)
  | .scope n e decls => .scope (n.disguise f) (e.disguise f) (Decl.listDisguise f decls)

def Expr.listDisguise (f : Disguise) : List Expr → List Expr
  | [] => []
  | e :: es => e.disguise f :: Expr.listDisguise f es

def Stmt.disguise (f : Disguise) : Stmt → Stmt
  | .assign m dst src => .assign (m.disguise f) (dst.disguise f) (src.disguise f)
  | .eval m e => .eval (m.disguise f) (e.disguise f)
  | .cond m test yes no =>
    .cond (m.disguise f) (test.disguise f) (Stmt.listDisguise f yes) (Stmt.listDisguise f no)
  | .loop m test body => .loop (m.disguise f) (test.disguise f) (Stmt.listDisguise f body)

def Stmt.listDisguise (f : Disguise) : List Stmt → List Stmt
  | [] => []
  | s :: ss => s.disguise f :: Stmt.listDisguise f ss

def Decl.disguise (f : Disguise) : Decl → Decl
  | .var v => .var (v.disguise f)
  | .foreign head => .foreign (head.disguise f)
  | .fn head body => .fn (head.disguise f) (body.disguise f)

def Decl.listDisguise (f : Disguise) : List Decl → List Decl
  | [] => []
  | d :: ds => d.disguise f :: Decl.listDisguise f ds

end

def Program.disguise (f : Disguise) (p : Program) : Program := ⟨Decl.listDisguise f p.decls⟩

@[simp] theorem Expr.node_disguise (f : Disguise) (e : Expr) :
    (e.disguise f).node = e.node.disguise f := by
  cases e <;> rfl

@[simp] theorem Expr.id_disguise (f : Disguise) (e : Expr) : (e.disguise f).id = f.node e.id :=
  congrArg Node.id (e.node_disguise f)

@[simp] theorem Expr.ty_disguise (f : Disguise) (e : Expr) :
    (e.disguise f).ty = e.ty.disguise f :=
  congrArg Node.ty (e.node_disguise f)

/-! ## Parts -/

mutual

theorem Expr.within_disguise (f : Disguise) :
    ∀ e : Expr, (e.disguise f).within = e.within.map (·.disguise f)
  | .atom .. => rfl
  | .name .. => rfl
  | .index _ arr idx => by
    simp [Expr.disguise, Expr.within, Expr.within_disguise f arr, Expr.within_disguise f idx]
  | .field _ base _ => by simp [Expr.disguise, Expr.within, Expr.within_disguise f base]
  | .binary _ _ lhs rhs => by
    simp [Expr.disguise, Expr.within, Expr.within_disguise f lhs, Expr.within_disguise f rhs]
  | .unary _ _ e | .deref _ e => by simp [Expr.disguise, Expr.within, Expr.within_disguise f e]
  | .call _ _ args => by simp [Expr.disguise, Expr.within, Expr.listWithin_disguise f args]
  | .cast _ _ e => by simp [Expr.disguise, Expr.within, Expr.within_disguise f e]
  | .block _ body => by simp [Expr.disguise, Expr.within, Stmt.listWithin_disguise f body]
  | .scope _ e _ => by simp [Expr.disguise, Expr.within, Expr.within_disguise f e]

theorem Expr.listWithin_disguise (f : Disguise) :
    ∀ es : List Expr,
      Expr.listWithin (Expr.listDisguise f es) = (Expr.listWithin es).map (·.disguise f)
  | [] => rfl
  | e :: es => by
    simp [Expr.listDisguise, Expr.listWithin, Expr.within_disguise f e,
      Expr.listWithin_disguise f es]

theorem Stmt.within_disguise (f : Disguise) :
    ∀ s : Stmt, (s.disguise f).within = s.within.map (·.disguise f)
  | .assign _ dst src => by
    simp [Stmt.disguise, Stmt.within, Expr.within_disguise f dst, Expr.within_disguise f src]
  | .eval _ e => Expr.within_disguise f e
  | .cond _ test yes no => by
    simp [Stmt.disguise, Stmt.within, Expr.within_disguise f test,
      Stmt.listWithin_disguise f yes, Stmt.listWithin_disguise f no]
  | .loop _ test body => by
    simp [Stmt.disguise, Stmt.within, Expr.within_disguise f test,
      Stmt.listWithin_disguise f body]

theorem Stmt.listWithin_disguise (f : Disguise) :
    ∀ ss : List Stmt,
      Stmt.listWithin (Stmt.listDisguise f ss) = (Stmt.listWithin ss).map (·.disguise f)
  | [] => rfl
  | s :: ss => by
    simp [Stmt.listDisguise, Stmt.listWithin, Stmt.within_disguise f s,
      Stmt.listWithin_disguise f ss]

end

/-! ## Functions -/

mutual

def Routine.disguise (f : Disguise) : Routine → Routine
  | .mk head body inner =>
    .mk (head.disguise f) (body.map (·.disguise f)) (Routine.listDisguise f inner)

def Routine.listDisguise (f : Disguise) : List Routine → List Routine
  | [] => []
  | r :: rs => r.disguise f :: Routine.listDisguise f rs

end

theorem Routine.listDisguise_append (f : Disguise) (rs rs' : List Routine) :
    Routine.listDisguise f (rs ++ rs') =
      Routine.listDisguise f rs ++ Routine.listDisguise f rs' := by
  induction rs with
  | nil => rfl
  | cons r rs ih => exact congrArg (r.disguise f :: ·) ih

mutual

theorem Expr.routines_disguise (f : Disguise) :
    ∀ e : Expr, (e.disguise f).routines = Routine.listDisguise f e.routines
  | .atom .. => rfl
  | .name .. => rfl
  | .index _ arr idx => by
    simp only [Expr.disguise, Expr.routines, Expr.routines_disguise f arr,
      Expr.routines_disguise f idx, Routine.listDisguise_append]
  | .field _ base _ => Expr.routines_disguise f base
  | .binary _ _ lhs rhs => by
    simp only [Expr.disguise, Expr.routines, Expr.routines_disguise f lhs,
      Expr.routines_disguise f rhs, Routine.listDisguise_append]
  | .unary _ _ e | .deref _ e => Expr.routines_disguise f e
  | .call _ _ args => Expr.listRoutines_disguise f args
  | .cast _ _ e => Expr.routines_disguise f e
  | .block _ body => Stmt.listRoutines_disguise f body
  | .scope _ e decls => by
    simp only [Expr.disguise, Expr.routines, Expr.routines_disguise f e,
      Decl.listRoutines_disguise f decls, Routine.listDisguise_append]

theorem Expr.listRoutines_disguise (f : Disguise) :
    ∀ es : List Expr,
      Expr.listRoutines (Expr.listDisguise f es) = Routine.listDisguise f (Expr.listRoutines es)
  | [] => rfl
  | e :: es => by
    simp only [Expr.listDisguise, Expr.listRoutines, Expr.routines_disguise f e,
      Expr.listRoutines_disguise f es, Routine.listDisguise_append]

theorem Stmt.routines_disguise (f : Disguise) :
    ∀ s : Stmt, (s.disguise f).routines = Routine.listDisguise f s.routines
  | .assign _ dst src => by
    simp only [Stmt.disguise, Stmt.routines, Expr.routines_disguise f dst,
      Expr.routines_disguise f src, Routine.listDisguise_append]
  | .eval _ e => Expr.routines_disguise f e
  | .cond _ test yes no => by
    simp only [Stmt.disguise, Stmt.routines, Expr.routines_disguise f test,
      Stmt.listRoutines_disguise f yes, Stmt.listRoutines_disguise f no,
      Routine.listDisguise_append]
  | .loop _ test body => by
    simp only [Stmt.disguise, Stmt.routines, Expr.routines_disguise f test,
      Stmt.listRoutines_disguise f body, Routine.listDisguise_append]

theorem Stmt.listRoutines_disguise (f : Disguise) :
    ∀ ss : List Stmt,
      Stmt.listRoutines (Stmt.listDisguise f ss) = Routine.listDisguise f (Stmt.listRoutines ss)
  | [] => rfl
  | s :: ss => by
    simp only [Stmt.listDisguise, Stmt.listRoutines, Stmt.routines_disguise f s,
      Stmt.listRoutines_disguise f ss, Routine.listDisguise_append]

theorem Decl.routine?_disguise (f : Disguise) :
    ∀ d : Decl, (d.disguise f).routine? = d.routine?.map (·.disguise f)
  | .var _ => rfl
  | .foreign _ => rfl
  | .fn _ body => by
    simp only [Decl.disguise, Decl.routine?, Expr.routines_disguise f body, Option.map_some,
      Routine.disguise]

theorem Decl.listRoutines_disguise (f : Disguise) :
    ∀ ds : List Decl,
      Decl.listRoutines (Decl.listDisguise f ds) = Routine.listDisguise f (Decl.listRoutines ds)
  | [] => rfl
  | d :: ds => by
    simp only [Decl.listDisguise, Decl.listRoutines, Decl.routine?_disguise f d,
      Decl.listRoutines_disguise f ds, Routine.listDisguise_append]
    cases d.routine? <;> rfl

end

end MmixBackend.Typed
