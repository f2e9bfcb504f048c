import MmixBackend.Proofs.Drawing
import MmixBackend.Proofs.Registry

/-!
# Which programs compile

A program with numbers of its own for its nodes and declarations compiles exactly if it is well
shaped, as long as no word leaves its range.  Three passes take part in the decision.  Lowering
looks up what a body uses and takes the address of what has to denote memory; canonization accepts
a move only into a temporary or into memory; collecting the chunks finds what the other passes have
left and so has nothing to decide.
-/

namespace MmixBackend

open Typed Build

/-! ## Moves -/

namespace Ir

/-- How often the value of an expression is read from memory at last. -/
def Expr.level : Expr → Nat
  | .mem a => a.level + 1
  | _ => 0

theorem Stmt.allMovable_append (ss ts : List Stmt) :
    Stmt.allMovable (ss ++ ts) = (Stmt.allMovable ss && Stmt.allMovable ts) := by
  induction ss with
  | nil => rfl
  | cons s ss ih => rw [List.cons_append, Stmt.allMovable, Stmt.allMovable, ih, Bool.and_assoc]

theorem Expr.Solid.isPlace_eq {e : Expr} (h : e.Solid) : e.isPlace = decide (1 ≤ e.level) := by
  cases e with
  | temp t => exact h.elim
  | mem a => simp [Expr.isPlace, Expr.level]
  | const | name | binary | unary | call | after => rfl

/-- A statement has canonical code exactly if its moves go into temporaries and memory. -/
theorem Stmt.canonize_decides (loc : Location) (st : Stmt) :
    Decides (st.canonize loc) (st.isMovable = true) fun _ => True := by
  refine decides_of (fun h => ⟨(Stmt.accepts_canonize loc st).ok h, trivial⟩) fun h => ?_
  obtain ⟨hmovable, dst, -, rfl⟩ := (Stmt.accepts_canonize loc st).error h
  exact ⟨Bool.not_eq_true _ ▸ hmovable, trivial⟩

end Ir

/-! ## Functions within functions -/

namespace Typed

/-- All of these functions and of those inside them use what is there. -/
def Program.Nested (p : Program) (around : List Head) (rs : List Routine) : Prop :=
  ∀ i ∈ Routine.listItems around rs, i.isScoped p = true

variable {p : Program} {around : List Head} {rs rs' : List Routine}

theorem Program.nested_append :
    p.Nested around (rs ++ rs') ↔ p.Nested around rs ∧ p.Nested around rs' := by
  simp only [Program.Nested, Routine.listItems_append, List.forall_mem_append]

end Typed

namespace Lowering

/-! ## What lowering looks up -/

section Lookups

variable {p : Program} {layout : Layout} {n : Nat} {d : DeclId}

theorem reaches_iff (hl : Layouting.Recorded p layout) :
    p.reaches n d = true ↔
      ∃ a, layout.accesses[d]? = some a ∧ ∀ m, a.depth? = some m → m ≤ n := by
  simp only [Program.reaches, List.any_eq_true, Bool.and_eq_true, beq_iff_eq, Option.all_eq_true,
    decide_eq_true_eq, Prod.exists]
  constructor
  · rintro ⟨_, k, hk, rfl, hle⟩
    obtain ⟨a, ha, rfl⟩ := hl.access hk
    exact ⟨a, ha, hle⟩
  · rintro ⟨a, ha, hle⟩
    exact ⟨d, a.depth?, hl.declared ha, rfl, hle⟩

theorem hasOffset_iff (hl : Layouting.Recorded p layout) :
    p.hasOffset d = true ↔ ∃ offset depth, layout.accesses[d]? = some (.relative offset depth) := by
  simp only [Program.hasOffset, List.any_eq_true, Bool.and_eq_true, beq_iff_eq, Prod.exists]
  constructor
  · rintro ⟨_, k, hk, rfl, hsome⟩
    obtain ⟨a, ha, rfl⟩ := hl.access hk
    cases a with
    | absolute => cases hsome
    | relative offset depth => exact ⟨offset, depth, ha⟩
  · rintro ⟨offset, depth, ha⟩
    exact ⟨d, _, hl.declared ha, rfl, rfl⟩

theorem mayCall_iff (hl : Layouting.Recorded p layout) :
    p.mayCall n d = true ↔ ∃ f, layout.frames[d]? = some f ∧ f.depth ≤ n + 1 := by
  simp only [Program.mayCall, List.any_eq_true, Bool.and_eq_true, beq_iff_eq, decide_eq_true_eq,
    Prod.exists]
  constructor
  · rintro ⟨_, k, hk, rfl, hle⟩
    obtain ⟨f, hf, rfl⟩ := hl.frame hk
    exact ⟨f, hf, hle⟩
  · rintro ⟨f, hf, hle⟩
    exact ⟨d, f.depth, hl.framed hf, rfl, hle⟩

end Lookups

/-! ## What lowering decides -/

/-- The code of an expression is read from memory as often as the expression, and goes into a
temporary or into memory where the expression does. -/
structure Renders (e : Expr) (ir : Ir.Expr) : Prop where
  level : ir.level = e.level
  movable : ir.isMovable = e.assigns Expr.denotesMemory
  solid : ir.Solid

/-- A pass decides whatever its table has. -/
def Judges {α : Type} (x : Lowering α) (P : Prop) (Q : α → Prop) : Prop :=
  ∀ t, Decides (x t) P fun r => Q r.1

section Judges

variable {α β : Type} {x : Lowering α} {f : α → Lowering β} {P P' : Prop} {Q Q₁ : α → Prop}
  {Q' : β → Prop}

theorem judges_lift {x : Build α} (h : Decides x P Q) : Judges (liftM x) P Q := fun _ =>
  h.lift.imp Iff.rfl fun _ hr => hr.1

theorem judges_accept {a : α} (hP : P) (hQ : Q a) : Judges (pure a) P Q := fun _ =>
  decides_accept hP hQ

theorem judges_pure {a : α} (h : Q a) : Judges (pure a) True Q := judges_accept trivial h

theorem Judges.imp (h : Judges x P Q) (hP : P ↔ P') (hQ : ∀ a, Q a → Q₁ a) : Judges x P' Q₁ :=
  fun t => (h t).imp hP fun _ hr => hQ _ hr

theorem Judges.congr (h : Judges x P Q) (hP : P ↔ P') : Judges x P' Q := h.imp hP fun _ hQ => hQ

theorem Judges.bind (hx : Judges x P Q) (hf : ∀ a, Q a → Judges (f a) P' Q') :
    Judges (x >>= f) (P ∧ P') Q' := fun t =>
  decides_stateT_bind (hx t) fun a t' ha => hf a ha t'

theorem Judges.then (hx : Judges x True Q) (hf : ∀ a, Q a → Judges (f a) P' Q') :
    Judges (x >>= f) P' Q' :=
  (hx.bind hf).congr (iff_of_eq (true_and _))

theorem Judges.before (hx : Judges x P Q) (hf : ∀ a, Q a → Judges (f a) True Q') :
    Judges (x >>= f) P Q' :=
  (hx.bind hf).congr (iff_of_eq (and_true _))

theorem judges_modify (g : Lowered → Lowered) : Judges (modify g) True fun _ => True :=
  fun _ => decides_pure trivial

theorem Judges.keep {x : Lowering Ir.Expr} {Q : Ir.Expr → Prop} (h : Judges x P Q) (node : Node) :
    Judges (keep node x) P Q :=
  h.before fun _ he => (judges_modify _).then fun _ _ => judges_pure he

theorem Judges.keepStmt {x : Lowering Ir.Stmt} {Q : Ir.Stmt → Prop} (h : Judges x P Q)
    (mark : Mark) : Judges (keepStmt mark x) P Q :=
  h.before fun _ hs => (judges_modify _).then fun _ _ => judges_pure hs

end Judges

section Parts

variable {p : Program} {scope : Scope} {frame : Frame}

theorem isMovable_follow (n : Nat) {e : Ir.Expr} (h : e.isMovable = true) :
    (follow n e).isMovable = true := by
  induction n generalizing e with
  | zero => exact h
  | succ n ih => exact ih (by simpa [Ir.Expr.isMovable] using h)

theorem decides_frameAt (hf : scope.frame = some frame) (loc : Location) :
    Decides (frameAt scope loc) True (frame = ·) := by
  unfold frameAt
  rw [hf]
  exact decides_pure rfl

theorem decides_accessOf (d : DeclId) (loc : Location) :
    Decides (accessOf scope d loc) (∃ a, scope.layout.accesses[d]? = some a)
      (scope.layout.accesses[d]? = some ·) := by
  unfold accessOf
  cases ha : scope.layout.accesses[d]? with
  | none => exact decides_defect (by simp) trivial
  | some a => exact decides_accept (by simp) rfl

theorem decides_frameOf (d : DeclId) (loc : Location) :
    Decides (frameOf scope d loc) (∃ f, scope.layout.frames[d]? = some f)
      (scope.layout.frames[d]? = some ·) := by
  unfold frameOf
  cases hf : scope.layout.frames[d]? with
  | none => exact decides_defect (by simp) trivial
  | some f => exact decides_accept (by simp) rfl

theorem decides_address (loc : Location) (ir : Ir.Expr) :
    Decides (address loc ir) (1 ≤ ir.level) (ir = .mem ·) := by
  unfold address
  split
  · exact decides_accept (by simp [Ir.Expr.level]) rfl
  · next hmem =>
      refine decides_defect ?_ trivial
      cases ir with
      | mem a => exact absurd rfl (hmem a)
      | const | name | temp | binary | unary | call | after => simp [Ir.Expr.level]

theorem decides_atom {node : Node} {a : Atom}
    (hlit : ∀ n ∈ (Expr.atom node a).literals, ∃ label size init,
      scope.layout.literals[n]? = some (.absolute label size init)) :
    Decides (atom scope node a) True (Renders (.atom node a)) := by
  cases a with
  | str text =>
    obtain ⟨label, size, init, hl⟩ := hlit node.id List.mem_cons_self
    unfold atom
    rw [hl]
    exact decides_pure ⟨rfl, rfl, trivial⟩
  | void | nil | bool | char | int => exact decides_pure ⟨rfl, rfl, trivial⟩

theorem decides_cell (hl : Layouting.Recorded p scope.layout) (hf : scope.frame = some frame)
    (node : Node) (d : DeclId) :
    Decides (cell scope node d) (p.reaches frame.depth d = true) (Renders (.name node d)) := by
  have hreaches := reaches_iff hl (n := frame.depth) (d := d)
  refine (decides_accessOf d node.loc).bind_of_imp (fun h => (hreaches.mp h).imp fun _ h => h.1)
    fun a ha => ?_
  rw [ha] at hreaches
  cases a with
  | absolute label size init =>
    exact decides_accept (by simp [hreaches, Access.depth?]) ⟨rfl, rfl, trivial⟩
  | relative offset depth =>
    refine (decides_frameAt hf node.loc).then ?_
    rintro _ rfl
    have hiff : p.reaches frame.depth d = true ↔ depth ≤ frame.depth := by
      simp [hreaches, Access.depth?]
    rw [hiff]
    split
    · next hle =>
        refine decides_accept hle ⟨rfl, ?_, trivial⟩
        simpa [wordAt, Ir.Expr.isMovable, Expr.assigns] using isMovable_follow _ rfl
    · next hlt => exact decides_defect hlt trivial

theorem decides_component (hl : Layouting.Recorded p scope.layout) (node : Node) (base : Ir.Expr)
    (c : DeclId) :
    Decides (component scope node base c) (p.hasOffset c = true)
      fun ir => ∃ offset, ir = wordAt base offset := by
  have hoffset := hasOffset_iff hl (d := c)
  refine (decides_accessOf c node.loc).bind_of_imp (fun h => ?_) fun a ha => ?_
  · obtain ⟨offset, depth, ha⟩ := hoffset.mp h
    exact ⟨_, ha⟩
  · rw [ha] at hoffset
    cases a with
    | absolute => exact decides_defect (by simp [hoffset]) trivial
    | relative offset depth =>
      exact decides_accept (by simp [hoffset]) ⟨offset, rfl⟩

theorem decides_callee (hl : Layouting.Recorded p scope.layout) (hf : scope.frame = some frame)
    (node : Node) (f : DeclId) :
    Decides (callee scope node f) (p.mayCall frame.depth f = true)
      fun r => r.2.isMovable = true := by
  have hcall := mayCall_iff hl (n := frame.depth) (d := f)
  refine (decides_frameOf f node.loc).bind_of_imp (fun h => (hcall.mp h).imp fun _ h => h.1)
    fun target ht => ?_
  have hiff : p.mayCall frame.depth f = true ↔ target.depth ≤ frame.depth + 1 := by
    simp [hcall, ht]
  rw [hiff]
  refine (decides_frameAt hf node.loc).then ?_
  rintro _ rfl
  split
  · next hzero => exact decides_accept (by omega) rfl
  · refine (decides_exactly _).then fun inside hin => ?_
    -- depths are counted exactly or not at all
    have hinside : inside = frame.depth + 1 := by
      unfold Frame.depthInside at hin
      split at hin
      · exact (Except.ok.inj hin).symm
      · cases hin
    subst hinside
    split
    · next hle => exact decides_accept hle (isMovable_follow _ rfl)
    · next hlt => exact decides_defect hlt trivial

end Parts

/-- Lowering is in a function with this frame, whose layout is the program's; `around` lists the
function and those around it. -/
structure Inside (p : Program) (scope : Scope) (frame : Frame) (around : List Head) : Prop where
  recorded : Layouting.Recorded p scope.layout
  own : scope.frame = some frame
  depth : around.length = frame.depth + 1

/-- What the expressions of a body need to be lowered: their literals are placed, and the functions
declared in them are functions of the program. -/
structure Prepared (p : Program) (layout : Layout) (around : List Head) (es : List Expr)
    (rs : List Routine) : Prop where
  literals : ∀ n ∈ es.flatMap Expr.literals, ∃ label size init,
    layout.literals[n]? = some (.absolute label size init)
  items : Routine.listItems around rs ⊆ p.items

section Judgements

variable {p : Program}

/-- Taking an address decides whether an expression denotes memory. -/
theorem judges_address {e : Expr} {ir : Ir.Expr} (h : Renders e ir) (loc : Location) :
    Judges (liftM (address loc ir)) (e.denotesMemory = true) fun a => Renders e (.mem a) := by
  refine (judges_lift (decides_address loc ir)).imp ?_ fun a ha => ha ▸ h
  simp [Expr.denotesMemory, h.level]

theorem judges_runtime {P : Prop} {e : Expr} {scope : Scope} {frame : Frame} {x : Lowering Ir.Expr}
    (hx : Judges x P (Renders e)) (hf : scope.frame = some frame) (loc : Location)
    (name : String) :
    Judges (do
      let label ← Build.namedLabel name
      let f ← frameAt scope loc
      return Ir.Expr.call label [0, Word.size] [.temp f.fp, ← x]) P
      fun ir => ir.level = 0 ∧ ir.isMovable = e.assigns Expr.denotesMemory ∧ ir.Solid :=
  (judges_lift (decides_namedLabel name)).then fun _ _ =>
    (judges_lift (decides_frameAt hf loc)).then fun _ _ => hx.before fun _ hv => judges_pure
      ⟨rfl, by simp [Ir.Expr.isMovable, Ir.Expr.allMovable, hv.movable], trivial⟩

theorem Renders.movable_mem {e : Expr} {a : Ir.Expr} (h : Renders e (.mem a)) :
    a.isMovable = e.assigns Expr.denotesMemory := by
  rw [← h.movable, Ir.Expr.isMovable]

section Prepared

variable {layout : Layout} {around : List Head} {es es' : List Expr} {rs rs' : List Routine}

theorem nested_nil : p.Nested around [] := by simp [Program.Nested, Routine.listItems]

theorem Prepared.of_append (h : Prepared p layout around (es ++ es') (rs ++ rs')) :
    Prepared p layout around es rs ∧ Prepared p layout around es' rs' := by
  obtain ⟨hlit, hitems⟩ := h
  rw [List.flatMap_append] at hlit
  rw [Routine.listItems_append, List.append_subset] at hitems
  exact ⟨⟨fun n hn => hlit n (List.mem_append_left _ hn), hitems.1⟩,
    ⟨fun n hn => hlit n (List.mem_append_right _ hn), hitems.2⟩⟩

theorem Prepared.of_cons {e : Expr} (h : Prepared p layout around (e :: es) rs) :
    Prepared p layout around es rs :=
  ⟨fun n hn => h.literals n (List.mem_append_right _ hn), h.items⟩

/-- The functions declared beside an expression have no part in its literals. -/
theorem Prepared.split (h : Prepared p layout around es (rs ++ rs')) :
    Prepared p layout around [] rs ∧ Prepared p layout around es rs' :=
  Prepared.of_append (List.nil_append es ▸ h)

theorem prepared_body (hl : Layouting.Recorded p layout) {head : Head} {body : Expr}
    (h : (Routine.mk head (some body) body.routines).items around ⊆ p.items) :
    Prepared p layout (head :: around) body.within body.routines := by
  obtain ⟨hown, hinner⟩ := List.cons_subset.mp h
  refine ⟨fun n hn => hl.literal _ hown n ?_, hinner⟩
  simpa [Item.literals, Item.exprs] using hn

end Prepared

mutual

/-- Lowering an expression succeeds exactly if what it uses is there, also in the functions declared
in it. -/
theorem expr_judges :
    ∀ {e : Expr} {scope : Scope} {frame : Frame} {around : List Head},
      Inside p scope frame around → Prepared p scope.layout around e.within e.routines →
      Judges (expr scope e) (e.isScoped p frame.depth = true ∧ p.Nested around e.routines)
        (Renders e)
  | .atom node a, _, _, _, _, hp => by
    rw [expr]
    refine ((judges_lift (decides_atom fun n hn => hp.literals n ?_)).keep node).congr ?_
    · simpa [Expr.within] using hn
    · simp [Expr.isScoped, Expr.routines, nested_nil]
  | .name node d, _, _, _, hi, hp => by
    rw [expr]
    refine ((judges_lift (decides_cell hi.recorded hi.own node d)).keep node).congr ?_
    simp [Expr.isScoped, Expr.routines, nested_nil]
  | .index node arr idx, _, _, _, hi, hp => by
    rw [expr]
    rw [Expr.within, Expr.routines] at hp
    obtain ⟨hpa, hpi⟩ := hp.of_cons.of_append
    refine Judges.keep (((expr_judges hi hpa).bind fun ir hir =>
      (judges_address hir arr.loc).bind fun a ha => (expr_judges hi hpi).before fun i hx =>
        (judges_lift (decides_exactly node.ty.size)).then fun n _ =>
          judges_pure ⟨rfl, ?_, trivial⟩).congr ?_) node
    · simp only [Expr.isScoped, Expr.routines, Program.nested_append, Bool.and_eq_true]
      tauto
    · simp [Ir.Expr.isMovable, Expr.assigns, ha.movable_mem, hx.movable]
  | .field node base c, _, _, _, hi, hp => by
    rw [expr]
    rw [Expr.within, Expr.routines] at hp
    refine Judges.keep (((expr_judges hi hp.of_cons).bind fun ir hir =>
      (judges_address hir base.loc).bind fun a ha =>
        (judges_lift (decides_component hi.recorded node a c)).imp Iff.rfl ?_).congr ?_) node
    · rintro _ ⟨offset, rfl⟩
      refine ⟨rfl, ?_, trivial⟩
      simp [wordAt, Ir.Expr.isMovable, Expr.assigns, ha.movable_mem]
    · simp only [Expr.isScoped, Expr.routines, Bool.and_eq_true]
      tauto
  | .binary node op lhs rhs, _, _, _, hi, hp => by
    rw [expr]
    rw [Expr.within, Expr.routines] at hp
    obtain ⟨hpl, hpr⟩ := hp.of_cons.of_append
    refine Judges.keep (((expr_judges hi hpl).bind fun l hl =>
      (expr_judges hi hpr).before fun r hr => judges_pure ⟨rfl, ?_, trivial⟩).congr ?_) node
    · simp only [Expr.isScoped, Expr.routines, Program.nested_append, Bool.and_eq_true]
      tauto
    · simp [Ir.Expr.isMovable, Expr.assigns, hl.movable, hr.movable]
  | .unary node op e, scope, frame, around, hi, hp => by
    rw [Expr.within, Expr.routines] at hp
    have he := expr_judges hi hp.of_cons
    rw [Expr.routines]
    cases op with
    | plus =>
      rw [expr, Expr.isScoped]
      · exact (he.imp Iff.rfl fun ir h => ⟨h.level, h.movable, h.solid⟩).keep node
      · simp
    | minus | not =>
      rw [expr, Expr.isScoped]
      · refine (he.before fun v hv => judges_pure ?_).keep node
        exact ⟨rfl, by simp [Ir.Expr.isMovable, Expr.assigns, hv.movable], trivial⟩
      · simp
    | addressOf =>
      rw [expr, Expr.isScoped, Bool.and_eq_true]
      refine Judges.keep ((he.bind fun ir hir =>
        (judges_address hir e.loc).imp Iff.rfl ?_).congr (by tauto)) node
      rintro a ⟨hlevel, hmov, hsolid⟩
      exact ⟨by simp [Expr.level, ← hlevel, Ir.Expr.level], hmov, hsolid⟩
    | new | del =>
      rw [expr, Expr.isScoped]
      · refine ((judges_runtime he hi.own _ _).imp Iff.rfl ?_).keep node
        exact fun ir h => ⟨h.1, h.2.1, h.2.2⟩
      · simp
  | .deref node e, _, _, _, hi, hp => by
    rw [expr]
    rw [Expr.within, Expr.routines] at hp
    refine Judges.keep (((expr_judges hi hp.of_cons).before fun v hv => judges_pure ?_).congr
      (by simp [Expr.isScoped, Expr.routines])) node
    exact ⟨by simp [Ir.Expr.level, Expr.level, hv.level], hv.movable, hv.solid⟩
  | .call node f args, _, _, _, hi, hp => by
    rw [expr]
    rw [Expr.within, Expr.routines] at hp
    refine Judges.keep (((judges_lift (decides_callee hi.recorded hi.own node f)).bind
      fun r hr => (arguments_judges hi hp.of_cons Word.size).before fun vs hvs =>
        judges_pure ⟨rfl, ?_, trivial⟩).congr ?_) node
    · simp only [Expr.isScoped, Expr.routines, Bool.and_eq_true]
      tauto
    · simp [Ir.Expr.isMovable, Ir.Expr.allMovable, Expr.assigns, hr, hvs]
  | .cast node ty e, _, _, _, hi, hp => by
    rw [expr]
    rw [Expr.within, Expr.routines] at hp
    refine Judges.keep (((expr_judges hi hp.of_cons).before fun v hv => judges_pure ?_).congr
      (by simp [Expr.isScoped, Expr.routines])) node
    cases hchar : ty.isChar with
    | true =>
      refine ⟨by simp [Expr.level, hchar, Ir.Expr.level], ?_, trivial⟩
      simp [Ir.Expr.isMovable, Expr.assigns, hv.movable]
    | false => exact ⟨by simp [Expr.level, hchar, hv.level], hv.movable, hv.solid⟩
  | .block node body, _, _, _, hi, hp => by
    rw [expr]
    rw [Expr.within, Expr.routines] at hp
    refine Judges.keep (((block_judges hi hp.of_cons).before fun r hr => judges_pure ?_).congr
      (by simp [Expr.isScoped, Expr.routines])) node
    exact ⟨rfl, hr, trivial⟩
  | .scope node e decls, _, _, _, hi, hp => by
    rw [expr]
    rw [Expr.within, Expr.routines] at hp
    obtain ⟨hdecls, he⟩ := hp.of_cons.split
    refine Judges.keep (((functions_judges hi.recorded hdecls.items).bind fun _ _ =>
      (expr_judges hi he).imp Iff.rfl fun ir h => ⟨h.level, h.movable, h.solid⟩).congr ?_) node
    simp only [Expr.isScoped, Expr.routines, Program.nested_append]
    tauto

theorem arguments_judges :
    ∀ {args : List Expr} {scope : Scope} {frame : Frame} {around : List Head},
      Inside p scope frame around →
      Prepared p scope.layout around (Expr.listWithin args) (Expr.listRoutines args) →
      ∀ offset : Word, Judges (arguments scope offset args)
        (Expr.allScoped p frame.depth args = true ∧ p.Nested around (Expr.listRoutines args))
        fun r => Ir.Expr.allMovable r.2 = Expr.allAssign Expr.denotesMemory args
  | [], _, _, _, _, _, _ => by
    rw [arguments]
    exact judges_accept (by simp [Expr.allScoped, Expr.listRoutines, nested_nil]) rfl
  | a :: as, _, _, _, hi, hp, offset => by
    rw [arguments]
    rw [Expr.listWithin, Expr.listRoutines] at hp
    obtain ⟨hpa, hps⟩ := hp.of_append
    refine ((expr_judges hi hpa).bind fun v hv =>
      (judges_lift (decides_exactly a.ty.size)).then fun n _ =>
        (judges_lift (decides_exactly (Word.checkedAdd offset n))).then fun next _ =>
          (arguments_judges hi hps next).before fun r hr => judges_pure ?_).congr ?_
    · simp [Ir.Expr.allMovable, Expr.allAssign, hv.movable, hr]
    · simp only [Expr.allScoped, Expr.listRoutines, Program.nested_append, Bool.and_eq_true]
      tauto

theorem block_judges :
    ∀ {ss : List Stmt} {scope : Scope} {frame : Frame} {around : List Head},
      Inside p scope frame around →
      Prepared p scope.layout around (Stmt.listWithin ss) (Stmt.listRoutines ss) →
      Judges (block scope ss)
        (Stmt.allScoped p frame.depth ss = true ∧ p.Nested around (Stmt.listRoutines ss))
        fun r => (Ir.Stmt.allMovable r.1 && r.2.isMovable) = Stmt.allAssign Expr.denotesMemory ss
  | [], _, _, _, _, _ => by
    rw [block]
    exact judges_accept (by simp [Stmt.allScoped, Stmt.listRoutines, nested_nil]) rfl
  | [.eval mark e], _, _, _, hi, hp => by
    rw [block]
    simp only [Stmt.listWithin, Stmt.within, Stmt.listRoutines, Stmt.routines,
      List.append_nil] at hp
    refine ((expr_judges hi hp).before fun v hv =>
      (Judges.keepStmt (Q := fun _ => True) (judges_pure trivial) mark).then fun _ _ =>
        judges_pure ?_).congr ?_
    · simp [Ir.Stmt.allMovable, Stmt.allAssign, Stmt.assigns, hv.movable]
    · simp [Stmt.allScoped, Stmt.isScoped, Stmt.listRoutines, Stmt.routines]
  | .assign .. :: _, _, _, _, hi, hp | .cond .. :: _, _, _, _, hi, hp
  | .loop .. :: _, _, _, _, hi, hp | .eval .. :: _ :: _, _, _, _, hi, hp => by
    rw [block]
    · rw [Stmt.listWithin, Stmt.listRoutines] at hp
      obtain ⟨hps, hpss⟩ := hp.of_append
      refine ((stmt_judges hi hps).bind fun x hx => (block_judges hi hpss).before fun r hr =>
        judges_pure ?_).congr ?_
      · rw [Ir.Stmt.allMovable, Stmt.allAssign, hx, Bool.and_assoc, hr]
      · simp only [Stmt.allScoped, Stmt.listRoutines, Program.nested_append, Bool.and_eq_true]
        tauto
    · simp

theorem stmt_judges :
    ∀ {st : Stmt} {scope : Scope} {frame : Frame} {around : List Head},
      Inside p scope frame around →
      Prepared p scope.layout around st.within st.routines →
      Judges (stmt scope st)
        (st.isScoped p frame.depth = true ∧ p.Nested around st.routines)
        fun x => x.isMovable = st.assigns Expr.denotesMemory
  | .assign mark dst src, _, _, _, hi, hp => by
    rw [stmt]
    rw [Stmt.within, Stmt.routines] at hp
    obtain ⟨hpd, hps⟩ := hp.of_append
    refine Judges.keepStmt (((expr_judges hi hpd).bind fun d hd =>
      (expr_judges hi hps).before fun v hv => judges_pure ?_).congr ?_) mark
    · rw [Ir.Stmt.isMovable, Stmt.assigns, hd.movable, hv.movable, hd.solid.isPlace_eq,
        hd.level, Expr.denotesMemory]
    · simp only [Stmt.isScoped, Stmt.routines, Program.nested_append, Bool.and_eq_true]
      tauto
  | .eval mark e, _, _, _, hi, hp => by
    rw [stmt]
    rw [Stmt.within, Stmt.routines] at hp
    refine Judges.keepStmt (((expr_judges hi hp).before fun v hv => judges_pure ?_).congr
      (by simp [Stmt.isScoped, Stmt.routines])) mark
    rw [Ir.Stmt.isMovable, Stmt.assigns, hv.movable]
  | .cond mark test yes no, _, _, _, hi, hp => by
    rw [stmt]
    rw [Stmt.within, Stmt.routines] at hp
    obtain ⟨hp, hpn⟩ := hp.of_append
    obtain ⟨hpt, hpy⟩ := hp.of_append
    refine Judges.keepStmt (((judges_lift decides_newLabel).then fun onYes _ =>
      (judges_lift decides_newLabel).then fun onNo _ =>
        (judges_lift decides_newLabel).then fun done _ => (expr_judges hi hpt).bind fun c hc =>
          (stmts_judges hi hpy).bind fun ys hys => (stmts_judges hi hpn).before fun ns hns =>
            judges_pure ?_).congr ?_) mark
    · simp [Ir.Stmt.isMovable, Ir.Stmt.allMovable, Ir.Stmt.allMovable_append,
        Stmt.assigns, hc.movable, hys, hns, Bool.and_assoc]
    · simp only [Stmt.isScoped, Stmt.routines, Program.nested_append, Bool.and_eq_true]
      tauto
  | .loop mark test body, _, _, _, hi, hp => by
    rw [stmt]
    rw [Stmt.within, Stmt.routines] at hp
    obtain ⟨hpt, hpb⟩ := hp.of_append
    refine Judges.keepStmt (((judges_lift decides_newLabel).then fun again _ =>
      (judges_lift decides_newLabel).then fun enter _ =>
        (judges_lift decides_newLabel).then fun done _ => (expr_judges hi hpt).bind fun c hc =>
          (stmts_judges hi hpb).before fun ss hss => judges_pure ?_).congr ?_) mark
    · simp [Ir.Stmt.isMovable, Ir.Stmt.allMovable, Ir.Stmt.allMovable_append,
        Stmt.assigns, hc.movable, hss]
    · simp only [Stmt.isScoped, Stmt.routines, Program.nested_append, Bool.and_eq_true]
      tauto

theorem stmts_judges :
    ∀ {ss : List Stmt} {scope : Scope} {frame : Frame} {around : List Head},
      Inside p scope frame around →
      Prepared p scope.layout around (Stmt.listWithin ss) (Stmt.listRoutines ss) →
      Judges (stmts scope ss)
        (Stmt.allScoped p frame.depth ss = true ∧ p.Nested around (Stmt.listRoutines ss))
        fun xs => Ir.Stmt.allMovable xs = Stmt.allAssign Expr.denotesMemory ss
  | [], _, _, _, _, _ => by
    rw [stmts]
    exact judges_accept (by simp [Stmt.allScoped, Stmt.listRoutines, nested_nil]) rfl
  | st :: ss, _, _, _, hi, hp => by
    rw [stmts]
    rw [Stmt.listWithin, Stmt.listRoutines] at hp
    obtain ⟨hps, hpss⟩ := hp.of_append
    refine ((stmt_judges hi hps).bind fun x hx => (stmts_judges hi hpss).before fun xs hxs =>
      judges_pure ?_).congr ?_
    · rw [Ir.Stmt.allMovable, Stmt.allAssign, hx, hxs]
    · rw [Stmt.allScoped, Stmt.listRoutines, Program.nested_append, Bool.and_eq_true]
      tauto

theorem function_judges :
    ∀ {d : Decl} {scope : Scope} {around : List Head}, Layouting.Recorded p scope.layout →
      Routine.listItems around d.routine?.toList ⊆ p.items →
      Judges (function scope d) (p.Nested around d.routine?.toList) fun _ => True
  | .var _, _, _, _, _ | .foreign _, _, _, _, _ => by
    rw [function]
    exact judges_accept
      (by simp [Decl.routine?, Program.Nested, Routine.listItems, Routine.items, Item.isScoped])
      trivial
  | .fn head body, scope, around, hl, hsub => by
    rw [function]
    simp only [Decl.routine?, Option.toList_some, Routine.listItems, List.append_nil,
      Program.Nested] at hsub ⊢
    have hown : Item.function around head (some body) ∈ p.items := hsub List.mem_cons_self
    obtain ⟨frame, hframe, hdepth⟩ :=
      hl.frame (Layouting.mem_depths.mpr ⟨around, head, some body, hown, rfl, rfl⟩)
    have hfind : Judges (liftM (frameOf scope head.id head.loc)) True (frame = ·) :=
      (judges_lift (decides_frameOf head.id head.loc)).imp (by simp [hframe])
        fun f hf => Option.some.inj (hframe.symm.trans hf)
    have hinside : Inside p { scope with frame := some frame } frame (head :: around) :=
      ⟨hl, rfl, by rw [List.length_cons, hdepth]⟩
    have hiff : (body.isScoped p frame.depth = true ∧ p.Nested (head :: around) body.routines) ↔
        ∀ i ∈ (Routine.mk head (some body) body.routines).items around, i.isScoped p = true := by
      rw [Routine.items, List.forall_mem_cons, Item.isScoped, hdepth, Program.Nested]
    refine (hfind.then ?_).congr hiff
    rintro _ rfl
    exact (judges_lift (decides_note _)).then fun _ _ =>
      (expr_judges hinside (prepared_body hl hsub)).before fun _ _ => judges_pure trivial

theorem functions_judges :
    ∀ {ds : List Decl} {scope : Scope} {around : List Head}, Layouting.Recorded p scope.layout →
      Routine.listItems around (Decl.listRoutines ds) ⊆ p.items →
      Judges (functions scope ds) (p.Nested around (Decl.listRoutines ds)) fun _ => True
  | [], _, _, _, _ => by
    rw [functions]
    exact judges_accept (by simp [Decl.listRoutines, nested_nil]) trivial
  | d :: ds, _, _, hl, hsub => by
    rw [functions]
    rw [Decl.listRoutines, Routine.listItems_append, List.append_subset] at hsub
    rw [Decl.listRoutines, Program.nested_append]
    exact (function_judges hl hsub.1).bind fun _ _ => functions_judges hl hsub.2

end

end Judgements

end Lowering

/-! ## Collecting the chunks -/

theorem linearize_decides : ∀ ss : List Ir.Stmt, Decides (linearize ss) True fun _ => True
  | [] => decides_pure trivial
  | .branch .. :: ss => by
    rw [linearize]
    exact decides_newLabel.then fun _ _ => (linearize_decides ss).then fun _ _ =>
      decides_pure trivial
  | .label _ :: ss | .jump _ :: ss | .move .. :: ss | .eval _ :: ss | .seq _ :: ss => by
    rw [linearize]
    · exact (linearize_decides ss).then fun _ _ => decides_pure trivial
    · simp

/-- The frame and the code of a function are there, and the code goes into temporaries and memory
only if its body does. -/
def Ready (layout : Layout) (code : Lowered) (f : Head × Expr) : Prop :=
  ∃ frame value, layout.frames[f.1.id]? = some frame ∧ code.exprs[f.2.id]? = some value ∧
    value.isMovable = f.2.assigns Expr.denotesMemory

section Chunks

variable {layout : Layout} {code : Lowered}

theorem CodeChunk.build_decides {head : Head} {body : Expr} (h : Ready layout code (head, body)) :
    Decides (CodeChunk.build layout code head body) (body.assigns Expr.denotesMemory = true)
      fun _ => True := by
  obtain ⟨frame, value, hframe, hvalue, hmov⟩ := h
  unfold CodeChunk.build
  rw [hframe, hvalue, ← hmov]
  refine (decides_pure (Q := (frame = ·)) rfl).then ?_
  rintro _ rfl
  refine (decides_pure (Q := (value = ·)) rfl).then ?_
  rintro _ rfl
  refine decides_newLabel.then fun _ _ => decides_newLabel.then fun _ _ => ?_
  refine ((Ir.Stmt.canonize_decides head.loc _).bind fun _ _ => (linearize_decides _).then
    fun _ _ => (decides_note _).then fun _ _ => decides_pure trivial).congr ?_
  simp [Ir.Stmt.isMovable, Ir.Expr.isPlace, Ir.Expr.isMovable]

mutual

theorem routine_chunks_decides :
    ∀ {r : Routine}, (∀ f ∈ r.functions, Ready layout code f) →
      Decides (r.chunks layout code)
        (∀ f ∈ r.functions, f.2.assigns Expr.denotesMemory = true) fun _ => True
  | .mk _ none _, _ => by
    rw [Routine.chunks]
    exact decides_accept (by simp [Routine.functions]) trivial
  | .mk head (some body) inner, h => by
    rw [Routine.functions, List.forall_mem_append] at h ⊢
    rw [Routine.chunks]
    refine (listChunks_decides h.1).bind fun _ _ => ?_
    refine ((CodeChunk.build_decides (h.2 _ List.mem_cons_self)).map fun _ h => h).congr ?_
    simp

theorem listChunks_decides :
    ∀ {rs : List Routine}, (∀ f ∈ Routine.listFunctions rs, Ready layout code f) →
      Decides (Routine.listChunks layout code rs)
        (∀ f ∈ Routine.listFunctions rs, f.2.assigns Expr.denotesMemory = true) fun _ => True
  | [], _ => by
    rw [Routine.listChunks]
    exact decides_accept (by simp [Routine.listFunctions]) trivial
  | r :: rs, h => by
    rw [Routine.listFunctions, List.forall_mem_append] at h ⊢
    rw [Routine.listChunks]
    exact (routine_chunks_decides h.1).bind fun _ _ => (listChunks_decides h.2).map fun _ h => h

end

theorem decl_chunks_decides {d : Decl}
    (h : ∀ f ∈ Routine.listFunctions d.routine?.toList, Ready layout code f) :
    Decides (d.chunks layout code)
      (∀ f ∈ Routine.listFunctions d.routine?.toList, f.2.assigns Expr.denotesMemory = true)
      fun _ => True := by
  cases d with
  | var v | foreign head =>
    exact decides_accept (by simp [Decl.routine?, Routine.listFunctions, Routine.functions])
      trivial
  | fn head body =>
    simp only [Decl.routine?, Option.toList_some, Routine.listFunctions, List.append_nil] at h ⊢
    exact routine_chunks_decides h

theorem decls_chunks_decides :
    ∀ {ds : List Decl}, (∀ f ∈ Routine.listFunctions (Decl.listRoutines ds), Ready layout code f) →
      Decides (Decl.listChunks layout code ds)
        (∀ f ∈ Routine.listFunctions (Decl.listRoutines ds), f.2.assigns Expr.denotesMemory = true)
        fun _ => True
  | [], _ => decides_accept (by simp [Decl.listRoutines, Routine.listFunctions]) trivial
  | d :: ds, h => by
    rw [Decl.listRoutines, Routine.listFunctions_append, List.forall_mem_append] at h ⊢
    exact (decl_chunks_decides h.1).bind fun _ _ => (decls_chunks_decides h.2).map fun _ h => h

end Chunks

/-! ## Whole programs -/

namespace Typed.Program

variable {p : Program}

/-- The functions of a program use what is there if those of its trees do. -/
theorem nested_iff :
    p.Nested [] (Decl.listRoutines p.decls) ↔ ∀ i ∈ p.items, i.isScoped p = true := by
  constructor
  · intro h i hi
    rcases mem_items_iff.mp hi with hi | ⟨v, rfl, -⟩
    · exact h i hi
    · rfl
  · exact fun h i hi => h i (mem_items_iff.mpr (Or.inl hi))

theorem assigns_iff :
    (∀ f ∈ p.functions, f.2.assigns Expr.denotesMemory = true) ↔
      ∀ i ∈ p.items, i.assigns Expr.denotesMemory = true := by
  constructor
  · intro h i hi
    cases i with
    | var v => rfl
    | function around head body =>
      cases body with
      | none => rfl
      | some body => exact h _ (items_closed hi).2
  · intro h f hf
    obtain ⟨around, hi⟩ := exists_item hf
    exact h _ hi

theorem lower_decides {layout : Layout} (hl : Layouting.Recorded p layout)
    (hids : (Lowering.ids (Decl.listThroughout p.decls)).Nodup) :
    Decides (p.lower layout) (∀ i ∈ p.items, i.isScoped p = true)
      fun code => ∀ f ∈ p.functions, Ready layout code f := by
  have hrecorded : Layouting.Recorded p ({ layout } : Scope).layout := hl
  have hall := Lowering.functions_judges hrecorded (fun i hi => mem_items_iff.mpr (Or.inl hi)) {}
  refine (hall.run.map ?_).congr nested_iff
  rintro ⟨_, code⟩ ⟨-, s, s', hrun⟩ f hf
  obtain ⟨⟨frame, value, t, t', r, r', hframe, hvalue, -, hent⟩, -⟩ :=
    ((Lowering.functions_lowers hrun).fills hids).bodies f hf
  obtain ⟨around, hi⟩ := exists_item hf
  obtain ⟨frame', hframe', hdepth⟩ :=
    hl.frame (Layouting.mem_depths.mpr ⟨around, f.1, some f.2, hi, rfl, rfl⟩)
  obtain rfl := Option.some.inj (hframe.symm.trans hframe')
  have hinside : Lowering.Inside p { layout, frame := some frame } frame (f.1 :: around) :=
    ⟨hl, rfl, by rw [List.length_cons, hdepth]⟩
  have hrenders :=
    Lowering.expr_judges hinside (Lowering.prepared_body hl (items_closed hi).1) t |>.ok hvalue
  exact ⟨frame, value, hframe, hent, hrenders.2.movable⟩

/-- Compiling a program decides whether it is well shaped. -/
theorem compile_decides (hp : p.Distinct)
    (hids : (Lowering.ids (Decl.listThroughout p.decls)).Nodup) :
    Decides p.compile (p.isShaped = true) fun _ => True := by
  have hshaped : p.isShaped = true ↔ (∀ i ∈ p.items, i.isScoped p = true) ∧
      ∀ f ∈ p.functions, f.2.assigns Expr.denotesMemory = true := by
    simp only [isShaped, List.all_eq_true, Bool.and_eq_true, assigns_iff, forall_and]
  rw [hshaped]
  refine (Layouting.layout_recorded hp).then fun layout hl => ?_
  refine (lower_decides hl hids).bind fun code hcode => ?_
  exact (decls_chunks_decides hcode).map fun _ _ => trivial

/-- As long as no word leaves its range, a program compiles exactly if it is well shaped.  Else a
defect is reported, which is never that a function has no frame or no code when its chunk is
collected. -/
theorem compile_iff_isShaped {s₀ : Session} (hp : p.Distinct)
    (hids : (Lowering.ids (Decl.listThroughout p.decls)).Nodup)
    (hwords : ∀ cause s', p.compile s₀ ≠ .error (.overflow cause) s') :
    ((∃ c s, p.compile s₀ = .ok c s) ↔ p.isShaped = true) ∧
      (p.isShaped = false → ∃ loc d s, p.compile s₀ = .error (.internal loc d) s ∧
        ∀ name, d ≠ .missingFrame name ∧ d ≠ .notLowered name) := by
  have hall := compile_decides hp hids
  cases hx : p.compile s₀ with
  | ok c s =>
    obtain ⟨hshaped, -⟩ := hall.ok hx
    exact ⟨⟨fun _ => hshaped, fun _ => ⟨c, s, rfl⟩⟩, fun h => by simp [hshaped] at h⟩
  | error e s =>
    have hdenies := hall.error hx
    cases e with
    | internal loc d =>
      refine ⟨⟨fun ⟨_, _, h⟩ => (nomatch h), fun h => absurd h hdenies.1⟩, fun _ => ?_⟩
      refine ⟨loc, d, s, rfl, fun name => ⟨?_, ?_⟩⟩
      · rintro rfl
        exact hdenies.2
      · rintro rfl
        exact hdenies.2
    | overflow cause => exact absurd hx (hwords cause s)
    | exhausted | config | missingEntry => exact hdenies.elim

/-- The type `{a : int, b : int[2]}`. -/
abbrev pair : Ty := .record [⟨⟨2⟩, "a", .int⟩, ⟨⟨3⟩, "b", .array .int 2⟩]

/-- `main` has a variable `r : pair` and a function in which `op r.b[0] = ^(&r.a)`. -/
def writing (op : PrefixOp) : Program where
  decls := [.fn ⟨⟨0⟩, "main", [], .int, {}⟩ (.scope (.value 0)
    (.call (.value 1) ⟨4⟩ [])
    [.var ⟨⟨1⟩, "r", pair, {}⟩,
      .fn ⟨⟨4⟩, "set", [], .int, {}⟩ (.block (.value 2) [
        .assign ⟨⟨20⟩, {}⟩
          (.unary (.value 3) op (.index (.place 4)
            (.field ⟨⟨5⟩, .array .int 2, true, {}⟩ (.name ⟨⟨6⟩, pair, true, {}⟩ ⟨1⟩) ⟨3⟩)
            (.atom (.value 7) (.int 0))))
          (.deref (.place 8) (.unary ⟨⟨9⟩, .ptr .int, false, {}⟩ .addressOf
            (.field (.place 10) (.name ⟨⟨11⟩, pair, true, {}⟩ ⟨1⟩) ⟨2⟩))),
        .eval ⟨⟨21⟩, {}⟩ (.atom (.value 12) (.int 0))])])]

/-- `+r.b[0]` denotes memory and `-r.b[0]` does not. -/
theorem compile_iff_isShaped_writing :
    (∀ op ∈ [PrefixOp.plus, .minus], (writing op).Distinct ∧
      (Lowering.ids (Decl.listThroughout (writing op).decls)).Nodup ∧
      ∀ cause s', (writing op).compile {} ≠ .error (.overflow cause) s') ∧
      (∃ c s, (writing .plus).compile {} = .ok c s) ∧
      ∃ loc d s, (writing .minus).compile {} = .error (.internal loc d) s ∧
        ∀ name, d ≠ .missingFrame name ∧ d ≠ .notLowered name := by
  have hwords : ∀ op ∈ [PrefixOp.plus, .minus], ∀ cause s',
      (writing op).compile {} ≠ .error (.overflow cause) s' := by
    intro op hop cause s' heq
    have hfits : ∀ op ∈ [PrefixOp.plus, .minus], (match (writing op).compile {} with
        | .error (.overflow _) _ => false
        | .error (.internal ..) _ | .error (.exhausted ..) _ | .error (.config _) _
        | .error .missingEntry _ | .ok .. => true) = true := by
      decide +kernel
    have hop := hfits op hop
    rw [heq] at hop
    cases hop
  have hall : ∀ op ∈ [PrefixOp.plus, .minus], (writing op).Distinct ∧
      (Lowering.ids (Decl.listThroughout (writing op).decls)).Nodup ∧
      ∀ cause s', (writing op).compile {} ≠ .error (.overflow cause) s' := by
    intro op hop
    refine ⟨⟨⟨⟨?_, ?_⟩, ?_⟩, ?_⟩, ?_, hwords op hop⟩ <;> revert op <;> decide +kernel
  obtain ⟨hd, hids, hw⟩ := hall .plus (by decide)
  obtain ⟨hd', hids', hw'⟩ := hall .minus (by decide)
  exact ⟨hall, (compile_iff_isShaped hd hids hw).1.mpr (by decide),
    (compile_iff_isShaped hd' hids' hw').2 (by decide)⟩

end Typed.Program

end MmixBackend
