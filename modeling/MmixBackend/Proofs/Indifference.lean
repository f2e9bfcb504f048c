import MmixBackend.Proofs.Disguise
import MmixBackend.Proofs.Layout
import MmixBackend.Proofs.Relocation

/-!
# Numbers, places and marks have no meaning

A program and the same program in disguise are compiled side by side.  Every pass keeps one
relation: what the tables of the second hold under a renamed number is what those of the first
hold under the number.  So the passes draw the same temporaries and labels, and make the same
frames and the same intermediate code; the chunks differ in the places of their functions at most,
and those show in no line and in no run.

Two programs that differ in numbers, places and marks have a common disguise, the one without
places and marks under the numbers of one of them.  The main theorem compares both with it.
-/

namespace MmixBackend

open Typed Build

/-! ## Tables -/

section Tables

variable {κ α : Type} [Ord κ] [Std.TransOrd κ] {g : κ → κ} {t u : Table κ α}

/-- The second table has under a renamed key what the first has under the key. -/
def Renames (g : κ → κ) (t u : Table κ α) : Prop := ∀ k, u[g k]? = t[k]?

theorem Renames.contains (h : Renames g t u) (k : κ) : u.contains (g k) = t.contains k := by
  rw [Std.ExtTreeMap.contains_eq_isSome_getElem?, Std.ExtTreeMap.contains_eq_isSome_getElem?, h k]

theorem Renames.insert [Std.LawfulEqOrd κ] (hg : ∀ {a b}, g a = g b → a = b)
    (h : Renames g t u) (k : κ) (v : α) : Renames g (t.insert k v) (u.insert (g k) v) := by
  intro k'
  rw [Std.ExtTreeMap.getElem?_insert, Std.ExtTreeMap.getElem?_insert, h k']
  by_cases hk : k = k'
  · subst hk
    simp
  · have hne : g k ≠ g k' := fun heq => hk (hg heq)
    simp [hk, hne]

end Tables

/-- Two layouts of one program, the second under renamed numbers. -/
structure Layout.Renames (f : Disguise) (l l' : Layout) : Prop where
  frames : MmixBackend.Renames f.decl l.frames l'.frames
  accesses : MmixBackend.Renames f.decl l.accesses l'.accesses
  literals : MmixBackend.Renames f.node l.literals l'.literals

/-- Two tables of intermediate code, the second under renamed numbers. -/
structure Lowered.Renames (f : Disguise) (t t' : Lowered) : Prop where
  exprs : MmixBackend.Renames f.node t.exprs t'.exprs
  stmts : MmixBackend.Renames f.node t.stmts t'.stmts

variable {f : Disguise}

/-! ## Layout -/

mutual

theorem Typed.Ty.place_disguise (hf : f.Faithful) :
    ∀ (ty : Ty) {t u : Table DeclId Access}, Renames f.decl t u →
      Concur (Renames f.decl) (ty.place t) ((ty.disguise f).place u)
  | .void, _, _, h => h
  | .char, _, _, h => h
  | .int, _, _, h => h
  | .bool, _, _, h => h
  | .ptr target, _, _, h => Typed.Ty.place_disguise hf target h
  | .array elem _, _, _, h => Typed.Ty.place_disguise hf elem h
  | .record comps, t, u, h => by
    have hfrom := Typed.Component.placeFrom_disguise hf 0 comps h
    have hfirst : (Component.listDisguise f comps).head?.any (u.contains ·.id) =
        comps.head?.any (t.contains ·.id) := by
      cases comps with
      | nil => rfl
      | cons c cs =>
        obtain ⟨id, name, ty⟩ := c
        exact h.contains id
    rw [Ty.disguise, Ty.place, Ty.place, hfirst]
    split
    · exact h
    · exact hfrom

theorem Typed.Component.placeFrom_disguise (hf : f.Faithful) :
    ∀ (offset : Word) (cs : List Component) {t u : Table DeclId Access}, Renames f.decl t u →
      Concur (Renames f.decl) (Component.placeFrom offset cs t)
        (Component.placeFrom offset (Component.listDisguise f cs) u)
  | _, [], _, _, h => h
  | offset, ⟨id, _, ty⟩ :: cs, _, _, h => by
    refine (Typed.Ty.place_disguise hf ty (h.insert hf.decl id _)).bind fun t' u' h' => ?_
    rw [Ty.size_disguise]
    refine (concur_refl ty.size).bind ?_
    rintro n _ rfl
    refine (concur_refl (Word.checkedAdd offset n)).bind ?_
    rintro next _ rfl
    exact Typed.Component.placeFrom_disguise hf next cs h'

end

namespace Layouting

theorem place_disguise (hf : f.Faithful) (ty : Ty) :
    Carries (Layout.Renames f) Eq (place ty) (place (ty.disguise f)) :=
  carries_get.bind fun _ _ h => ((ty.place_disguise hf h.accesses).alike.carries).bind
    fun _ _ ha => carries_set { h with accesses := ha }

theorem access_disguise (hf : f.Faithful) (d : DeclId) (a : Access) :
    Carries (Layout.Renames f) Eq (access d a) (access (f.decl d) a) :=
  carries_modify fun _ _ h => { h with accesses := h.accesses.insert hf.decl d a }

theorem params_disguise (hf : f.Faithful) (depth : Nat) (ps : List Param) :
    ∀ offset, Carries (Layout.Renames f) Eq (params depth offset ps)
      (params depth offset (ps.map (·.disguise f))) := by
  induction ps with
  | nil =>
    intro offset
    exact carries_pure rfl
  | cons p ps ih =>
    intro offset
    refine (place_disguise hf p.ty).bind_eq fun _ => ?_
    refine (access_disguise hf p.id _).bind_eq fun _ => ?_
    have hsize : (p.disguise f).ty.size = p.ty.size := p.ty.size_disguise f
    rw [hsize]
    exact (carries_lift _).bind_eq fun _ => (carries_lift _).bind_eq ih

theorem locals_disguise (hf : f.Faithful) (depth : Nat) (ds : List Decl) :
    ∀ x, Carries (Layout.Renames f) Eq (locals depth x ds)
      (locals depth x (Decl.listDisguise f ds)) := by
  induction ds with
  | nil =>
    intro x
    exact carries_pure rfl
  | cons d ds ih =>
    intro x
    cases d with
    | foreign head => exact ih x
    | fn head body => exact ih x
    | var v =>
      refine (place_disguise hf v.ty).bind_eq fun _ => ?_
      have hsize : (v.disguise f).ty.size = v.ty.size := v.ty.size_disguise f
      rw [hsize]
      refine (carries_lift _).bind_eq fun n => ?_
      refine (carries_lift _).bind_eq fun total => ?_
      refine (carries_lift _).bind_eq fun offset => ?_
      exact (access_disguise hf v.id _).bind_eq fun _ => ih _

theorem argumentSizes_disguise (es : List Expr) :
    ∀ sum, argumentSizes sum (Expr.listDisguise f es) = argumentSizes sum es := by
  induction es with
  | nil =>
    intro sum
    rfl
  | cons e es ih =>
    intro sum
    simp only [Expr.listDisguise, argumentSizes, Expr.ty_disguise, Ty.size_disguise, ih]

theorem visit_disguise (hf : f.Faithful) (depth : Nat) (x : Extent) (e : Expr) :
    Carries (Layout.Renames f) Eq (visit depth x e) (visit depth x (e.disguise f)) := by
  unfold visit
  rw [Expr.ty_disguise]
  refine (place_disguise hf e.ty).bind_eq fun _ => ?_
  cases e with
  | atom n a =>
    cases a with
    | str s =>
      refine (carries_lift newLabel).bind_eq fun label => ?_
      refine Carries.bind_eq (carries_modify fun _ _ h => ?_) fun _ => carries_pure rfl
      exact { h with literals := h.literals.insert hf.node n.id _ }
    | _ => exact carries_pure rfl
  | call n d args =>
    simp only [Expr.disguise, argumentSizes_disguise]
    exact (carries_lift _).bind_eq fun _ => (carries_lift _).bind_eq fun _ => carries_pure rfl
  | unary n op a => cases op <;> exact carries_pure rfl
  | cast n ty a => exact (place_disguise hf ty).bind_eq fun _ => carries_pure rfl
  | scope n a ds => exact locals_disguise hf depth ds x
  | _ => exact carries_pure rfl

theorem label_disguise (depth : Nat) (head : Head) :
    Carries (Layout.Renames f) Eq (label depth head) (label depth (head.disguise f)) := by
  unfold label
  by_cases hdepth : depth = 0
  · rw [if_pos hdepth, if_pos hdepth]
    exact carries_lift _
  · rw [if_neg hdepth, if_neg hdepth]
    exact carries_lift _

theorem extent_disguise (hf : f.Faithful) (depth : Nat) (body : Option Expr) :
    Carries (Layout.Renames f) Eq (extent depth body)
      (extent depth (body.map (·.disguise f))) := by
  cases body with
  | none => exact carries_pure rfl
  | some body =>
    rw [Option.map_some, extent, extent, Expr.within_disguise]
    exact carries_foldlM (visit_disguise hf depth) body.within {}

theorem frame_carries (depth : Nat) (label : Label) (x : Extent) :
    Carries (Layout.Renames f) Eq (frame depth label x) (frame depth label x) :=
  (carries_lift _).bind_eq fun _ => (carries_lift _).bind_eq fun _ =>
    (carries_lift _).bind_eq fun _ => (carries_lift _).bind_eq fun _ =>
      (carries_lift _).bind_eq fun _ => carries_pure rfl

mutual

theorem routine_disguise (hf : f.Faithful) : ∀ (depth : Nat) (r : Routine),
    Carries (Layout.Renames f) Eq (routine depth r) (routine depth (r.disguise f))
  | depth, .mk head body inner => by
    rw [Routine.disguise, routine_eq, routine_eq]
    refine (label_disguise depth head).bind_eq fun label => ?_
    refine (params_disguise hf depth head.params _).bind_eq fun _ => ?_
    refine (place_disguise hf head.ret).bind_eq fun _ => ?_
    refine (extent_disguise hf depth body).bind_eq fun x => ?_
    refine (frame_carries depth label x).bind_eq fun frame => ?_
    refine Carries.bind_eq (carries_modify fun _ _ h => ?_)
      fun _ => routines_disguise hf (depth + 1) inner
    exact { h with frames := h.frames.insert hf.decl head.id frame }

theorem routines_disguise (hf : f.Faithful) : ∀ (depth : Nat) (rs : List Routine),
    Carries (Layout.Renames f) Eq (routines depth rs) (routines depth (Routine.listDisguise f rs))
  | _, [] => carries_pure rfl
  | depth, r :: rs => (routine_disguise hf depth r).bind_eq fun _ => routines_disguise hf depth rs

end

theorem decl_disguise (hf : f.Faithful) (d : Decl) :
    Carries (Layout.Renames f) Eq (decl d) (decl (d.disguise f)) := by
  cases d with
  | var v =>
    refine (place_disguise hf v.ty).bind_eq fun _ => ?_
    refine (carries_lift _).bind_eq fun label => ?_
    have hsize : (v.disguise f).ty.size = v.ty.size := v.ty.size_disguise f
    rw [hsize]
    exact (carries_lift _).bind_eq fun _ => access_disguise hf v.id _
  | foreign head => exact routine_disguise hf 0 (.mk head none [])
  | fn head body =>
    rw [Decl.disguise, decl, decl, Expr.routines_disguise]
    exact routine_disguise hf 0 (.mk head (some body) body.routines)

theorem forM_decl_disguise (hf : f.Faithful) (ds : List Decl) :
    Carries (Layout.Renames f) Eq (ds.forM decl) ((Decl.listDisguise f ds).forM decl) := by
  induction ds with
  | nil => exact carries_pure rfl
  | cons d ds ih => exact (decl_disguise hf d).bind_eq fun _ => ih

end Layouting

/-- A disguised program has the same layout under renamed numbers. -/
theorem Typed.Program.layout_disguise (hf : f.Faithful) (p : Program) :
    Alike (Layout.Renames f) p.layout (p.disguise f).layout :=
  (Layouting.forM_decl_disguise hf p.decls {} {} ⟨fun _ => rfl, fun _ => rfl, fun _ => rfl⟩).bind
    fun _ _ h => alike_pure h.2

/-! ## Intermediate code -/

/-- What lowering looks up on both sides. -/
structure Scope.Renames (f : Disguise) (scope scope' : Scope) : Prop where
  layout : scope.layout.Renames f scope'.layout
  frame : scope'.frame = scope.frame

theorem Layout.Renames.scope {l l' : Layout} (h : l.Renames f l') (frame : Option Frame) :
    Scope.Renames f { layout := l, frame } { layout := l', frame } := ⟨h, rfl⟩

namespace Lowering

variable {scope scope' : Scope}

theorem keep_disguise (hf : f.Faithful) (n : Node) {x y : Lowering Ir.Expr}
    (h : Carries (Lowered.Renames f) Eq x y) :
    Carries (Lowered.Renames f) Eq (keep n x) (keep (n.disguise f) y) :=
  h.bind_eq fun e => Carries.bind_eq
    (carries_modify fun _ _ ht => { ht with exprs := ht.exprs.insert hf.node n.id e })
    fun _ => carries_pure rfl

theorem keepStmt_disguise (hf : f.Faithful) (m : Mark) {x y : Lowering Ir.Stmt}
    (h : Carries (Lowered.Renames f) Eq x y) :
    Carries (Lowered.Renames f) Eq (keepStmt m x) (keepStmt (m.disguise f) y) :=
  h.bind_eq fun s => Carries.bind_eq
    (carries_modify fun _ _ ht => { ht with stmts := ht.stmts.insert hf.node m.id s })
    fun _ => carries_pure rfl

theorem address_alike (loc loc' : Location) (e : Ir.Expr) :
    Alike Eq (address loc e) (address loc' e) := by
  cases e with
  | mem a => exact alike_refl _
  | _ => exact alike_defect rfl

theorem block_cons_carries {st st' : Stmt} {ss ss' : List Stmt}
    (hst : ∀ mark e, st = .eval mark e → ss ≠ []) (hst' : ∀ mark e, st' = .eval mark e → ss' ≠ [])
    (h : Carries (Lowered.Renames f) Eq (stmt scope st) (stmt scope' st'))
    (hs : Carries (Lowered.Renames f) Eq (block scope ss) (block scope' ss')) :
    Carries (Lowered.Renames f) Eq (block scope (st :: ss)) (block scope' (st' :: ss')) := by
  rw [block, block]
  · exact h.bind_eq fun _ => hs.bind_eq fun _ => carries_pure rfl
  · exact hst'
  · exact hst

section Lookups

variable (hs : scope.Renames f scope')

include hs

theorem frameAt_alike (loc loc' : Location) :
    Alike Eq (frameAt scope loc) (frameAt scope' loc') := by
  unfold frameAt
  rw [hs.frame]
  cases scope.frame with
  | some frame => exact alike_refl _
  | none => exact alike_defect rfl

theorem frameOf_alike (d : DeclId) (loc loc' : Location) :
    Alike Eq (frameOf scope d loc) (frameOf scope' (f.decl d) loc') := by
  unfold frameOf
  rw [hs.layout.frames d]
  cases scope.layout.frames[d]? with
  | some frame => exact alike_refl _
  | none => exact alike_defect rfl

theorem accessOf_alike (d : DeclId) (loc loc' : Location) :
    Alike Eq (accessOf scope d loc) (accessOf scope' (f.decl d) loc') := by
  unfold accessOf
  rw [hs.layout.accesses d]
  cases scope.layout.accesses[d]? with
  | some a => exact alike_refl _
  | none => exact alike_defect rfl

theorem atom_alike (n : Node) (a : Atom) :
    Alike Eq (atom scope n a) (atom scope' (n.disguise f) a) := by
  cases a with
  | str s =>
    have hlit : scope'.layout.literals[(n.disguise f).id]? = scope.layout.literals[n.id]? :=
      hs.layout.literals n.id
    simp only [atom, hlit]
    split
    · exact alike_refl _
    · exact alike_defect rfl
  | _ => exact alike_refl _

theorem cell_alike (n : Node) (d : DeclId) :
    Alike Eq (cell scope n d) (cell scope' (n.disguise f) (f.decl d)) := by
  refine (accessOf_alike hs d _ _).bind_eq fun a => ?_
  cases a with
  | absolute label size init => exact alike_refl _
  | relative offset depth =>
    exact (frameAt_alike hs _ _).bind_eq fun frame =>
      alike_ite (alike_refl _) (alike_defect rfl)

theorem component_alike (n : Node) (base : Ir.Expr) (d : DeclId) :
    Alike Eq (component scope n base d) (component scope' (n.disguise f) base (f.decl d)) := by
  refine (accessOf_alike hs d _ _).bind_eq fun a => ?_
  cases a with
  | absolute label size init => exact alike_defect rfl
  | relative offset depth => exact alike_refl _

theorem callee_alike (n : Node) (d : DeclId) :
    Alike Eq (callee scope n d) (callee scope' (n.disguise f) (f.decl d)) := by
  refine (frameOf_alike hs d _ _).bind_eq fun target => ?_
  refine (frameAt_alike hs _ _).bind_eq fun frame => ?_
  refine alike_ite (alike_refl _) ?_
  refine (alike_refl (exactly frame.depthInside)).bind_eq fun inside => ?_
  exact alike_ite (alike_refl _) (alike_defect rfl)

end Lookups

mutual

theorem expr_disguise (hf : f.Faithful) {scope scope' : Scope} (hs : scope.Renames f scope') :
    ∀ e : Expr, Carries (Lowered.Renames f) Eq (expr scope e) (expr scope' (e.disguise f))
  | .atom n a => keep_disguise hf n (atom_alike hs n a).carries
  | .name n d => keep_disguise hf n (cell_alike hs n d).carries
  | .index n arr idx => keep_disguise hf n <|
      (expr_disguise hf hs arr).bind_eq fun v =>
        (address_alike _ _ v).carries.bind_eq fun base =>
          (expr_disguise hf hs idx).bind_eq fun i => by
            have hsize : (n.disguise f).ty.size = n.ty.size := n.ty.size_disguise f
            rw [hsize]
            exact (carries_lift _).bind_eq fun _ => carries_pure rfl
  | .field n base comp => keep_disguise hf n <|
      (expr_disguise hf hs base).bind_eq fun v =>
        (address_alike _ _ v).carries.bind_eq fun a => (component_alike hs n a comp).carries
  | .binary n _ lhs rhs => keep_disguise hf n <|
      (expr_disguise hf hs lhs).bind_eq fun _ =>
        (expr_disguise hf hs rhs).bind_eq fun _ => carries_pure rfl
  | .unary n op e => keep_disguise hf n <| by
      have he := expr_disguise hf hs e
      cases op with
      | plus => exact he
      | minus | not => exact he.bind_eq fun _ => carries_pure rfl
      | addressOf => exact he.bind_eq fun v => (address_alike _ _ v).carries
      | new | del =>
        exact (carries_lift _).bind_eq fun _ => (frameAt_alike hs _ _).carries.bind_eq fun _ =>
          he.bind_eq fun _ => carries_pure rfl
  | .deref n e => keep_disguise hf n <|
      (expr_disguise hf hs e).bind_eq fun _ => carries_pure rfl
  | .call n d args => keep_disguise hf n <|
      (callee_alike hs n d).carries.bind_eq fun _ =>
        (arguments_disguise hf hs Word.size args).bind_eq fun _ => carries_pure rfl
  | .cast n ty e => keep_disguise hf n <|
      (expr_disguise hf hs e).bind_eq fun _ => by
        rw [Ty.isChar_disguise]
        exact carries_pure rfl
  | .block n body => keep_disguise hf n <|
      (block_disguise hf hs body).bind_eq fun _ => carries_pure rfl
  | .scope n e decls => keep_disguise hf n <|
      (functions_disguise hf hs decls).bind_eq fun _ => expr_disguise hf hs e

theorem arguments_disguise (hf : f.Faithful) {scope scope' : Scope}
    (hs : scope.Renames f scope') : ∀ (offset : Word) (es : List Expr),
      Carries (Lowered.Renames f) Eq (arguments scope offset es)
        (arguments scope' offset (Expr.listDisguise f es))
  | _, [] => carries_pure rfl
  | offset, e :: es => by
    rw [Expr.listDisguise, arguments, arguments, Expr.ty_disguise, Ty.size_disguise]
    exact (expr_disguise hf hs e).bind_eq fun _ => (carries_lift _).bind_eq fun _ =>
      (carries_lift _).bind_eq fun next =>
        (arguments_disguise hf hs next es).bind_eq fun _ => carries_pure rfl

theorem block_disguise (hf : f.Faithful) {scope scope' : Scope} (hs : scope.Renames f scope') :
    ∀ ss : List Stmt,
      Carries (Lowered.Renames f) Eq (block scope ss) (block scope' (Stmt.listDisguise f ss))
  | [] => carries_pure rfl
  | [.eval m e] => (expr_disguise hf hs e).bind_eq fun _ =>
    (keepStmt_disguise hf m (carries_pure rfl)).bind_eq fun _ => carries_pure rfl
  | .eval m e :: s :: ss => block_cons_carries (by simp) (by simp [Stmt.listDisguise])
      (stmt_disguise hf hs (.eval m e)) (block_disguise hf hs (s :: ss))
  | .assign m dst src :: ss => block_cons_carries (by simp) (by simp [Stmt.disguise])
      (stmt_disguise hf hs (.assign m dst src)) (block_disguise hf hs ss)
  | .cond m test yes no :: ss => block_cons_carries (by simp) (by simp [Stmt.disguise])
      (stmt_disguise hf hs (.cond m test yes no)) (block_disguise hf hs ss)
  | .loop m test body :: ss => block_cons_carries (by simp) (by simp [Stmt.disguise])
      (stmt_disguise hf hs (.loop m test body)) (block_disguise hf hs ss)

theorem stmt_disguise (hf : f.Faithful) {scope scope' : Scope} (hs : scope.Renames f scope') :
    ∀ s : Stmt, Carries (Lowered.Renames f) Eq (stmt scope s) (stmt scope' (s.disguise f))
  | .assign m dst src => keepStmt_disguise hf m <|
      (expr_disguise hf hs dst).bind_eq fun _ =>
        (expr_disguise hf hs src).bind_eq fun _ => carries_pure rfl
  | .eval m e => keepStmt_disguise hf m <|
      (expr_disguise hf hs e).bind_eq fun _ => carries_pure rfl
  | .cond m test yes no => keepStmt_disguise hf m <|
      (carries_lift _).bind_eq fun _ => (carries_lift _).bind_eq fun _ =>
        (carries_lift _).bind_eq fun _ => (expr_disguise hf hs test).bind_eq fun _ =>
          (stmts_disguise hf hs yes).bind_eq fun _ =>
            (stmts_disguise hf hs no).bind_eq fun _ => carries_pure rfl
  | .loop m test body => keepStmt_disguise hf m <|
      (carries_lift _).bind_eq fun _ => (carries_lift _).bind_eq fun _ =>
        (carries_lift _).bind_eq fun _ => (expr_disguise hf hs test).bind_eq fun _ =>
          (stmts_disguise hf hs body).bind_eq fun _ => carries_pure rfl

theorem stmts_disguise (hf : f.Faithful) {scope scope' : Scope} (hs : scope.Renames f scope') :
    ∀ ss : List Stmt,
      Carries (Lowered.Renames f) Eq (stmts scope ss) (stmts scope' (Stmt.listDisguise f ss))
  | [] => carries_pure rfl
  | s :: ss => (stmt_disguise hf hs s).bind_eq fun _ =>
    (stmts_disguise hf hs ss).bind_eq fun _ => carries_pure rfl

theorem function_disguise (hf : f.Faithful) {scope scope' : Scope}
    (hs : scope.Renames f scope') : ∀ d : Decl,
      Carries (Lowered.Renames f) Eq (function scope d) (function scope' (d.disguise f))
  | .var _ => carries_pure rfl
  | .foreign _ => carries_pure rfl
  | .fn head body => (frameOf_alike hs head.id _ _).carries.bind_eq fun _ =>
    (carries_lift _).bind_eq fun _ =>
      (expr_disguise hf (hs.layout.scope _) body).bind_eq fun _ => carries_pure rfl

theorem functions_disguise (hf : f.Faithful) {scope scope' : Scope}
    (hs : scope.Renames f scope') : ∀ ds : List Decl,
      Carries (Lowered.Renames f) Eq (functions scope ds)
        (functions scope' (Decl.listDisguise f ds))
  | [] => carries_pure rfl
  | d :: ds => (function_disguise hf hs d).bind_eq fun _ => functions_disguise hf hs ds

end

end Lowering

/-- A disguised program has the same intermediate code under renamed numbers. -/
theorem Typed.Program.lower_disguise (hf : f.Faithful) (p : Program) {l l' : Layout}
    (hl : l.Renames f l') : Alike (Lowered.Renames f) (p.lower l) ((p.disguise f).lower l') :=
  (Lowering.functions_disguise hf (hl.scope none) p.decls {} {} ⟨fun _ => rfl, fun _ => rfl⟩).bind
    fun _ _ h => alike_pure h.2

/-! ## Chunks -/

section Chunks

variable {l l' : Layout} {t t' : Lowered}

theorem Typed.Expr.literalChunk?_disguise (hl : l.Renames f l') (e : Expr) :
    (e.disguise f).literalChunk? l' = e.literalChunk? l := by
  cases e with
  | atom n a =>
    cases a with
    | str s => exact congrArg (· >>= DataChunk.ofAccess?) (hl.literals n.id)
    | _ => rfl
  | _ => rfl

theorem Typed.Expr.literals_disguise (hl : l.Renames f l') (e : Expr) :
    (e.disguise f).within.filterMap (·.literalChunk? l') =
      e.within.filterMap (·.literalChunk? l) := by
  have hparts : (fun e : Expr => (e.disguise f).literalChunk? l') = (·.literalChunk? l) :=
    funext (Typed.Expr.literalChunk?_disguise hl)
  rw [Expr.within_disguise, List.filterMap_map, ← hparts]
  rfl

theorem CodeChunk.build_disguise (hl : l.Renames f l') (ht : t.Renames f t') (head : Head)
    (body : Expr) :
    Alike (fun a b => b.plain = a.plain) (CodeChunk.build l t head body)
      (CodeChunk.build l' t' (head.disguise f) (body.disguise f)) := by
  have hframe : l'.frames[(head.disguise f).id]? = l.frames[head.id]? := hl.frames head.id
  have hvalue : t'.exprs[(body.disguise f).id]? = t.exprs[body.id]? := by
    rw [Expr.id_disguise]
    exact ht.exprs body.id
  unfold CodeChunk.build
  rw [hframe, hvalue]
  cases l.frames[head.id]? with
  | none => exact alike_defect_bind rfl
  | some frame =>
    refine (alike_refl (pure frame)).bind_eq fun frame => ?_
    cases t.exprs[body.id]? with
    | none => exact alike_defect_bind rfl
    | some value =>
      refine (alike_refl (pure value)).bind_eq fun value => ?_
      refine (alike_refl newLabel).bind_eq fun entry => ?_
      refine (alike_refl newLabel).bind_eq fun exit => ?_
      refine (Ir.Stmt.canonize_alike head.loc (f.loc head.loc) _).bind_eq fun flat => ?_
      refine (alike_refl (linearize (.label entry :: flat ++ [.jump exit]))).bind_eq
        fun stmts => ?_
      exact (alike_refl (note (.linear head.name stmts.length))).bind_eq
        fun _ => alike_pure rfl

theorem Chunks.plain_append {a a' b b' : Chunks} (ha : a'.plain = a.plain)
    (hb : b'.plain = b.plain) : (a' ++ b').plain = (a ++ b).plain := by
  have happend (c d : Chunks) : (c ++ d).plain = c.plain ++ d.plain :=
    congrArg (Chunks.mk · (c.data ++ d.data)) List.map_append
  rw [happend, happend, ha, hb]

mutual

theorem Typed.Routine.chunks_disguise (hl : l.Renames f l') (ht : t.Renames f t') :
    ∀ r : Routine, Alike (fun a b => b.plain = a.plain) (r.chunks l t)
      ((r.disguise f).chunks l' t')
  | .mk _ none _ => alike_pure rfl
  | .mk head (some body) inner => by
    rw [Routine.disguise, Option.map_some, Routine.chunks, Routine.chunks,
      body.literals_disguise hl]
    refine (Typed.Routine.listChunks_disguise hl ht inner).bind fun inside inside' hinside => ?_
    refine (CodeChunk.build_disguise hl ht head body).bind fun c c' hc => ?_
    refine alike_pure (Chunks.plain_append (Chunks.plain_append rfl hinside) ?_)
    exact congrArg (fun c => { code := [c] : Chunks }) hc

theorem Typed.Routine.listChunks_disguise (hl : l.Renames f l') (ht : t.Renames f t') :
    ∀ rs : List Routine, Alike (fun a b => b.plain = a.plain) (Routine.listChunks l t rs)
      (Routine.listChunks l' t' (Routine.listDisguise f rs))
  | [] => alike_pure rfl
  | r :: rs => (Typed.Routine.chunks_disguise hl ht r).bind fun _ _ h =>
    (Typed.Routine.listChunks_disguise hl ht rs).bind fun _ _ h' =>
      alike_pure (Chunks.plain_append h h')

end

theorem Typed.Decl.chunks_disguise (hl : l.Renames f l') (ht : t.Renames f t') (d : Decl) :
    Alike (fun a b => b.plain = a.plain) (d.chunks l t) ((d.disguise f).chunks l' t') := by
  cases d with
  | var v =>
    have hplace : l'.accesses[(v.disguise f).id]? = l.accesses[v.id]? := hl.accesses v.id
    simp only [Decl.disguise, Decl.chunks, hplace]
    exact alike_pure rfl
  | foreign head => exact alike_pure rfl
  | fn head body =>
    rw [Decl.disguise, Decl.chunks, Decl.chunks, Expr.routines_disguise]
    exact (Routine.mk head (some body) body.routines).chunks_disguise hl ht

theorem Typed.Decl.listChunks_disguise (hl : l.Renames f l') (ht : t.Renames f t')
    (ds : List Decl) : Alike (fun a b => b.plain = a.plain) (Decl.listChunks l t ds)
      (Decl.listChunks l' t' (Decl.listDisguise f ds)) := by
  induction ds with
  | nil => exact alike_pure rfl
  | cons d ds ih =>
    exact (d.chunks_disguise hl ht).bind fun _ _ h => ih.bind fun _ _ h' =>
      alike_pure (Chunks.plain_append h h')

end Chunks

/-- A disguised program has the same chunks, apart from the places of functions. -/
theorem Typed.Program.compile_disguise (hf : f.Faithful) (p : Program) :
    Alike (fun a b => b.chunks.plain = a.chunks.plain) p.compile (p.disguise f).compile :=
  (p.layout_disguise hf).bind fun _ _ hl => (p.lower_disguise hf hl).bind fun _ _ ht =>
    (Typed.Decl.listChunks_disguise hl ht p.decls).bind fun _ _ h => alike_pure h

/-! ## Programs that differ in numbers, places and marks -/

/-- Chunks that differ in the places of their functions become the same lines of assembly. -/
theorem Chunks.assemble_alike {a b : Chunks} (h : b.plain = a.plain) (registers : Nat) :
    Alike Eq (a.assemble registers) (b.assemble registers) := by
  have hb := (b.assemble_plain registers).symm
  rw [h] at hb
  refine ((a.assemble_plain registers).trans hb).mono ?_
  rintro lines _ ⟨_, rfl, rfl⟩
  rfl

namespace Typed.Program

/-- The program with other numbers for its nodes and declarations. -/
def rename (node : NodeId → NodeId) (decl : DeclId → DeclId) (p : Program) : Program :=
  p.disguise { node, decl }

/-- The program without places in the source and without marks. -/
def bare (p : Program) : Program := p.disguise { loc := fun _ => {}, lvalue := fun _ => false }

theorem compile_alike {p q : Program} {node : NodeId → NodeId} {decl : DeclId → DeclId}
    (hnode : Function.Injective node) (hdecl : Function.Injective decl)
    (hq : q.bare = (p.rename node decl).bare) :
    Alike (fun a b => b.chunks.plain = a.chunks.plain) p.compile q.compile := by
  have hbare : Disguise.Faithful { loc := fun _ => {}, lvalue := fun _ => false } := ⟨id, id⟩
  have hrename : Disguise.Faithful { node, decl } := ⟨@hnode, @hdecl⟩
  -- from `p` to its renamed form, to that without places and marks, and back up to `q`
  have hdown := (p.compile_disguise hrename).trans
    ((p.rename node decl).compile_disguise hbare)
  have hup := (q.compile_disguise hbare).symm
  rw [show q.disguise _ = _ from hq] at hup
  refine (hdown.trans hup).mono ?_
  rintro a b ⟨c, ⟨d, had, hdc⟩, hcb⟩
  exact (hcb.symm.trans hdc).trans had

/-- The numbers of nodes and declarations, the places in the source and the marks of memory cells
have no meaning: two programs that differ in nothing else are compiled both or neither, to chunks
with the same lines that run alike, and for every number of registers to the same assembly.  There
are finitely many numbers, so an injective renaming of those in a program extends to all. -/
theorem alike_of_bare_eq {p q : Program} {node : NodeId → NodeId} {decl : DeclId → DeclId}
    (hnode : Function.Injective node) (hdecl : Function.Injective decl)
    (hq : q.bare = (p.rename node decl).bare) :
    Alike (fun a b => ∀ names, a.chunks.lines names = b.chunks.lines names ∧
      ∀ settings entry input, Machine.run settings names a.chunks entry input =
        Machine.run settings names b.chunks entry input) p.compile q.compile ∧
    ∀ registers, Alike Eq (p.assemble registers) (q.assemble registers) := by
  have hcompile := compile_alike hnode hdecl hq
  refine ⟨hcompile.mono fun a b h names => ⟨?_, fun settings entry input => ?_⟩, ?_⟩
  · rw [← a.chunks.lines_plain, ← b.chunks.lines_plain, h]
  · rw [← Machine.run_plain, ← h, Machine.run_plain]
  · intro registers
    exact hcompile.bind fun a b h => Chunks.assemble_alike h registers

/-- A record, a literal and a function inside another one, with numbers, places and marks to
choose. -/
def successor (node : UInt32 → NodeId) (decl : UInt32 → DeclId) (loc : UInt64 → Location)
    (lvalue : Bool) : Program where
  decls :=
    let pair : Ty := .record [⟨decl 2, "x", .int⟩, ⟨decl 3, "y", .int⟩]
    [.var ⟨decl 1, "pair", pair, loc 0⟩,
     .fn ⟨decl 0, "main", [], .int, loc 1⟩ (.scope ⟨node 0, .int, lvalue, loc 2⟩
      (.block ⟨node 1, .int, lvalue, loc 3⟩ [
        .assign ⟨node 2, loc 4⟩
          (.field ⟨node 3, .int, lvalue, loc 5⟩
            (.name ⟨node 4, pair, lvalue, loc 6⟩ (decl 1)) (decl 3))
          (.deref ⟨node 5, .char, lvalue, loc 7⟩
            (.atom ⟨node 6, .ptr .char, lvalue, loc 8⟩ (.str "A"))),
        .eval ⟨node 7, loc 9⟩ (.call ⟨node 8, .int, lvalue, loc 10⟩ (decl 4) [
          .field ⟨node 9, .int, lvalue, loc 11⟩
            (.name ⟨node 10, pair, lvalue, loc 12⟩ (decl 1)) (decl 3)])])
      [.fn ⟨decl 4, "next", [⟨decl 5, "n", .int⟩], .int, loc 13⟩
        (.binary ⟨node 11, .int, lvalue, loc 14⟩ .add
          (.name ⟨node 12, .int, lvalue, loc 15⟩ (decl 5))
          (.atom ⟨node 13, .int, lvalue, loc 16⟩ (.int 1)))])]

/-- Numbers as they come, no places, no marks. -/
def successorPlain : Program := successor .mk .mk (fun _ => {}) false

/-- Other numbers, in another order, every part in a place of its own, and marked. -/
def successorMarked : Program :=
  successor (fun n => ⟨n + 100⟩) (fun d => ⟨7 - d⟩) (fun k => ⟨k, 1⟩) true

/-- Both forms of the program return the character after `A`. -/
theorem alike_successor :
    successorMarked.bare =
        (successorPlain.rename (fun n => ⟨n.number + 100⟩) (fun d => ⟨7 - d.number⟩)).bare ∧
      (∃ c s, successorPlain.compile {} = .ok c s ∧
        ∃ o, Machine.run { stepLimit := 100 } s.names c.chunks "_main" [] = .ok o ∧ o.exit = 66) ∧
      ∃ c s, successorMarked.compile {} = .ok c s ∧
        ∃ o, Machine.run { stepLimit := 100 } s.names c.chunks "_main" [] = .ok o ∧
          o.exit = 66 := by
  have hnode : Function.Injective fun n : NodeId => (⟨n.number + 100⟩ : NodeId) := by
    intro a b h
    cases a
    cases b
    simpa using h
  have hdecl : Function.Injective fun d : DeclId => (⟨7 - d.number⟩ : DeclId) := by
    intro a b h
    cases a
    cases b
    simpa using h
  have hmarked : successorMarked.bare =
    (successorPlain.rename (fun n => ⟨n.number + 100⟩) (fun d => ⟨7 - d.number⟩)).bare := rfl
  have hplain : ∃ c s, successorPlain.compile {} = .ok c s ∧
      ∃ o, Machine.run { stepLimit := 100 } s.names c.chunks "_main" [] = .ok o ∧
        o.exit = 66 := by
    decide +kernel
  refine ⟨hmarked, hplain, ?_⟩
  obtain ⟨halike, -⟩ :=
    alike_of_bare_eq (p := successorPlain) (q := successorMarked) hnode hdecl hmarked
  obtain ⟨c, s, hc, o, ho, hexit⟩ := hplain
  obtain ⟨d, hd, hsame⟩ := halike.ok hc
  have hrun := (hsame s.names).2 { stepLimit := 100 } "_main" []
  exact ⟨d, s, hd, o, hrun ▸ ho, hexit⟩

end Typed.Program

end MmixBackend
