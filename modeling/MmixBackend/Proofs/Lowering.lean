import Mathlib.Data.List.Basic
import MmixBackend.Proofs.Canonical
import MmixBackend.Proofs.Evaluation

/-!
# What lowering does

`Lowers` says what a successful lowering of each construct of a typed program is made of: the
intermediate code, and the tables and sessions it went through.  Facts about lowered code are proved
by induction on it.  Here: what all of it leaves alone.

Lowering an expression enters code under the nodes of the expression and under no others, draws
the labels of its code and no others, and draws each of them once.  When no two nodes are the
same, the table of a lowered program has the code of every function's body, made with the frame
of that function, and the labels in the bodies of all functions were drawn once altogether, those
of a function inside another apart from those of the function around it.
-/

namespace MmixBackend

open Typed Build

theorem Typed.Expr.mem_throughout (e : Expr) : e ∈ e.throughout := by
  cases e <;> simp [Expr.throughout]

/-- Not a temporary, nor the word at a temporary, and so on. -/
def Ir.Expr.Solid : Ir.Expr → Prop
  | .temp _ => False
  | .mem a => a.Solid
  | _ => True

theorem Ir.Expr.Solid.ne_temp {e : Ir.Expr} (h : e.Solid) (t : Temp) : e ≠ .temp t := by
  rintro rfl
  exact h

namespace Lowering

/-! ## The parts of a lowering -/

variable {d : DeclId}

section Parts

variable {scope : Scope} {t t' : Lowered} {s s' : Session} {ir : Ir.Expr}

/-- The table after an expression's code was entered. -/
abbrev entry (t : Lowered) (node : Node) (ir : Ir.Expr) : Lowered :=
  { t with exprs := t.exprs.insert node.id ir }

theorem keep_ok {node : Node} {x : Lowering Ir.Expr} :
    keep node x t s = .ok (ir, t') s' ↔
      ∃ t₁, x t s = .ok (ir, t₁) s' ∧ t' = entry t₁ node ir := by
  simp only [keep, stateT_bind_ok, stateT_modify_ok, stateT_pure_ok]
  constructor
  · rintro ⟨e, t₁, s₁, hx, _, _, _, ⟨rfl, rfl⟩, rfl, rfl, rfl⟩
    exact ⟨t₁, hx, rfl⟩
  · rintro ⟨t₁, hx, rfl⟩
    exact ⟨ir, t₁, s', hx, (), _, _, ⟨rfl, rfl⟩, rfl, rfl, rfl⟩

theorem keepStmt_ok {mark : Mark} {x : Lowering Ir.Stmt} {st : Ir.Stmt} :
    keepStmt mark x t s = .ok (st, t') s' ↔
      ∃ t₁, x t s = .ok (st, t₁) s' ∧ t' = { t₁ with stmts := t₁.stmts.insert mark.id st } := by
  simp only [keepStmt, stateT_bind_ok, stateT_modify_ok, stateT_pure_ok]
  constructor
  · rintro ⟨e, t₁, s₁, hx, _, _, _, ⟨rfl, rfl⟩, rfl, rfl, rfl⟩
    exact ⟨t₁, hx, rfl⟩
  · rintro ⟨t₁, hx, rfl⟩
    exact ⟨st, t₁, s', hx, (), _, _, ⟨rfl, rfl⟩, rfl, rfl, rfl⟩

variable {loc : Location}

theorem frameAt_ok {f : Frame} :
    frameAt scope loc s = .ok f s' ↔ scope.frame = some f ∧ s' = s := by
  unfold frameAt
  cases scope.frame with
  | none => simp [defect_ok]
  | some g => simp [pure_ok, eq_comm]

theorem frameOf_ok {f : Frame} :
    frameOf scope d loc s = .ok f s' ↔ scope.layout.frames[d]? = some f ∧ s' = s := by
  unfold frameOf
  cases scope.layout.frames[d]? with
  | none => simp [defect_ok]
  | some g => simp [pure_ok, eq_comm]

theorem accessOf_ok {a : Access} :
    accessOf scope d loc s = .ok a s' ↔ scope.layout.accesses[d]? = some a ∧ s' = s := by
  unfold accessOf
  cases scope.layout.accesses[d]? with
  | none => simp [defect_ok]
  | some g => simp [pure_ok, eq_comm]

theorem address_ok {e a : Ir.Expr} :
    address loc e s = .ok a s' ↔ e = .mem a ∧ s' = s := by
  cases e with
  | mem b => simp [address, pure_ok, eq_comm]
  | const | name | temp | binary | unary | call | after => simp [address, defect_ok]

end Parts

/-- The value of an atom that is no literal. -/
def word? : Atom → Option Word
  | .void => some placeholder
  | .nil => some 0
  | .bool b => some (Word.ofBool b)
  | .char c => some (Int64.ofNat c.toNat)
  | .int v => some v
  | .str _ => none

/-- The expression has no parts, and this is its code. -/
inductive Leaf (scope : Scope) : Expr → Ir.Expr → Prop
  | word {node a v} : word? a = some v → Leaf scope (.atom node a) (.const v)
  | literal {node text l n init} :
      scope.layout.literals[node.id]? = some (.absolute l n init) →
      Leaf scope (.atom node (.str text)) (.name l)
  | static {node d l n init} : scope.layout.accesses[d]? = some (.absolute l n init) →
      Leaf scope (.name node d) (.mem (.name l))
  | framed {node d offset depth frame} :
      scope.layout.accesses[d]? = some (.relative offset depth) → scope.frame = some frame →
      depth ≤ frame.depth →
      Leaf scope (.name node d) (wordAt (follow (frame.depth - depth) (.temp frame.fp)) offset)

/-- The first expression has the second as its only part, and gets its code from the code of the
part. -/
inductive Wrap (scope : Scope) : Expr → Expr → Ir.Expr → Ir.Expr → Prop
  | field {node e d a offset depth} :
      scope.layout.accesses[d]? = some (.relative offset depth) →
      Wrap scope (.field node e d) e (.mem a) (wordAt a offset)
  | plus {node e v} : Wrap scope (.unary node .plus e) e v v
  | minus {node e v} : Wrap scope (.unary node .minus e) e v (.unary .neg v)
  | not {node e v} : Wrap scope (.unary node .not e) e v (.unary .not v)
  | addressOf {node e a} : Wrap scope (.unary node .addressOf e) e (.mem a) a
  | deref {node e v} : Wrap scope (.deref node e) e v (.mem v)
  | char {node ty e v} : ty.isChar = true →
      Wrap scope (.cast node ty e) e v (.binary .mod v (.const 256))
  | cast {node ty e v} : ty.isChar = false → Wrap scope (.cast node ty e) e v v

/-- The first expression has the other two as its parts, and gets its code from theirs. -/
inductive Join : Expr → Expr → Expr → Ir.Expr → Ir.Expr → Ir.Expr → Prop
  | index {node arr idx base i n} : node.ty.size = .ok n →
      Join (.index node arr idx) arr idx (.mem base) i
        (.mem (.binary .add base (.binary .mul i (.const n))))
  | binary {node op lhs rhs l r} : Join (.binary node op lhs rhs) lhs rhs l r (.binary op l r)

/-- What a unary operator that makes a call, calls. -/
def runtimeName : PrefixOp → String
  | .del => "_del"
  | _ => "_new"

/-- How many static links lead from a function to the one that its callee is declared in. -/
def links (target frame : Frame) : Nat :=
  if target.depth = 0 then 0 else frame.depth + 1 - target.depth

abbrev drawnLabels (s : Session) : Session :=
  { s with names := s.names.newLabel.2.newLabel.2.newLabel.2 }

/-- Part of a typed program, with the code that lowering makes of it. -/
inductive Part
  /-- An expression whose code is not yet entered. -/
  | code (e : Expr) (ir : Ir.Expr)
  | expr (e : Expr) (ir : Ir.Expr)
  | arguments (offset : Word) (args : List Expr) (offsets : List Word) (values : List Ir.Expr)
  | block (ss : List Stmt) (xs : List Ir.Stmt) (v : Ir.Expr)
  | stmt (st : Stmt) (x : Ir.Stmt)
  | stmts (ss : List Stmt) (xs : List Ir.Stmt)
  | functions (ds : List Decl)

/-- Lowering this part leads from one table and session to another. -/
inductive Lowers : Scope → Part → Lowered → Session → Lowered → Session → Prop
  | entered {scope e ir t t' s s'} : expr scope e t s = .ok (ir, entry t' e.node ir) s' →
      Lowers scope (.code e ir) t s t' s' → Lowers scope (.expr e ir) t s (entry t' e.node ir) s'
  | leaf {scope e ir t s} : Leaf scope e ir → Lowers scope (.code e ir) t s t s
  | wrap {scope e e' v ir t t' s s'} : Wrap scope e e' v ir →
      Lowers scope (.expr e' v) t s t' s' → Lowers scope (.code e ir) t s t' s'
  | join {scope e e₁ e₂ v₁ v₂ ir t t₁ t' s s₁ s'} : Join e e₁ e₂ v₁ v₂ ir →
      Lowers scope (.expr e₁ v₁) t s t₁ s₁ → Lowers scope (.expr e₂ v₂) t₁ s₁ t' s' →
      Lowers scope (.code e ir) t s t' s'
  | runtime {scope node op e v frame t t' s s'} : op = .new ∨ op = .del →
      scope.frame = some frame →
      Lowers scope (.expr e v) t { s with names := (s.names.named (runtimeName op)).2 } t' s' →
      Lowers scope (.code (.unary node op e)
        (.call (s.names.named (runtimeName op)).1 [0, Word.size] [.temp frame.fp, v])) t s t' s'
  | call {scope node f args target frame os vs t t' s s'} :
      scope.layout.frames[f]? = some target → scope.frame = some frame →
      target.depth ≤ frame.depth + 1 →
      Lowers scope (.arguments Word.size args os vs) t s t' s' →
      Lowers scope (.code (.call node f args) (.call target.label (0 :: os)
        (follow (links target frame) (.temp frame.fp) :: vs))) t s t' s'
  | block {scope node ss xs v t t' s s'} : Lowers scope (.block ss xs v) t s t' s' →
      Lowers scope (.code (.block node ss) (.after (.seq xs) v)) t s t' s'
  /-- The functions are lowered before the expression they are declared for. -/
  | scope {scope node e ds ir t t₁ t' s s₁ s'} : Lowers scope (.functions ds) t s t₁ s₁ →
      Lowers scope (.expr e ir) t₁ s₁ t' s' → Lowers scope (.code (.scope node e ds) ir) t s t' s'
  | noArguments {scope offset t s} : Lowers scope (.arguments offset [] [] []) t s t s
  | argument {scope a as v n offset next os vs t t₁ t' s s₁ s'} :
      Lowers scope (.expr a v) t s t₁ s₁ → a.ty.size = .ok n →
      Word.checkedAdd offset n = .ok next → Lowers scope (.arguments next as os vs) t₁ s₁ t' s' →
      Lowers scope (.arguments offset (a :: as) (offset :: os) (v :: vs)) t s t' s'
  | noResult {scope t s} : Lowers scope (.block [] [] (.const placeholder)) t s t s
  | result {scope mark e v t t' s s'} : Lowers scope (.expr e v) t s t' s' →
      Lowers scope (.block [.eval mark e] [] v) t s
        { t' with stmts := t'.stmts.insert mark.id (.eval v) } s'
  | next {scope st ss x xs v t t₁ t' s s₁ s'} : (∀ mark e, st = .eval mark e → ss ≠ []) →
      Lowers scope (.stmt st x) t s t₁ s₁ → Lowers scope (.block ss xs v) t₁ s₁ t' s' →
      Lowers scope (.block (st :: ss) (x :: xs) v) t s t' s'
  | assign {scope mark dst src d v t t₁ t' s s₁ s'} : Lowers scope (.expr dst d) t s t₁ s₁ →
      Lowers scope (.expr src v) t₁ s₁ t' s' →
      Lowers scope (.stmt (.assign mark dst src) (.move d v)) t s
        { t' with stmts := t'.stmts.insert mark.id (.move d v) } s'
  | eval {scope mark e v t t' s s'} : Lowers scope (.expr e v) t s t' s' →
      Lowers scope (.stmt (.eval mark e) (.eval v)) t s
        { t' with stmts := t'.stmts.insert mark.id (.eval v) } s'
  | cond {scope mark test yes no c ys ns x t t₁ t₂ t' s s₁ s₂ s'} :
      Lowers scope (.expr test c) t (drawnLabels s) t₁ s₁ →
      Lowers scope (.stmts yes ys) t₁ s₁ t₂ s₂ → Lowers scope (.stmts no ns) t₂ s₂ t' s' →
      x = .seq ([Ir.Stmt.branch c ⟨s.names.labels.size⟩ ⟨s.names.labels.size + 1⟩,
          Ir.Stmt.label ⟨s.names.labels.size⟩] ++ ys ++
        [Ir.Stmt.jump ⟨s.names.labels.size + 2⟩, Ir.Stmt.label ⟨s.names.labels.size + 1⟩] ++ ns ++
        [Ir.Stmt.label ⟨s.names.labels.size + 2⟩]) →
      Lowers scope (.stmt (.cond mark test yes no) x) t s
        { t' with stmts := t'.stmts.insert mark.id x } s'
  | loop {scope mark test body c ss x t t₁ t' s s₁ s'} :
      Lowers scope (.expr test c) t (drawnLabels s) t₁ s₁ →
      Lowers scope (.stmts body ss) t₁ s₁ t' s' →
      x = .seq ([Ir.Stmt.label ⟨s.names.labels.size⟩,
          Ir.Stmt.branch c ⟨s.names.labels.size + 1⟩ ⟨s.names.labels.size + 2⟩,
          Ir.Stmt.label ⟨s.names.labels.size + 1⟩] ++ ss ++
        [Ir.Stmt.jump ⟨s.names.labels.size⟩, Ir.Stmt.label ⟨s.names.labels.size + 2⟩]) →
      Lowers scope (.stmt (.loop mark test body) x) t s
        { t' with stmts := t'.stmts.insert mark.id x } s'
  | noStmts {scope t s} : Lowers scope (.stmts [] []) t s t s
  | stmt {scope st ss x xs t t₁ t' s s₁ s'} : Lowers scope (.stmt st x) t s t₁ s₁ →
      Lowers scope (.stmts ss xs) t₁ s₁ t' s' →
      Lowers scope (.stmts (st :: ss) (x :: xs)) t s t' s'
  | noFunctions {scope t s} : Lowers scope (.functions []) t s t s
  | var {scope v ds t t' s s'} : Lowers scope (.functions ds) t s t' s' →
      Lowers scope (.functions (.var v :: ds)) t s t' s'
  | foreign {scope head ds t t' s s'} : Lowers scope (.functions ds) t s t' s' →
      Lowers scope (.functions (.foreign head :: ds)) t s t' s'
  /-- The body of a function is lowered within the frame of the function. -/
  | fn {scope head body frame ir ds t t₁ t' s s₀ s₁ s'} :
      scope.layout.frames[head.id]? = some frame → s₀.names = s.names →
      Lowers { scope with frame := some frame } (.expr body ir) t s₀ t₁ s₁ →
      Lowers scope (.functions ds) t₁ s₁ t' s' →
      Lowers scope (.functions (.fn head body :: ds)) t s t' s'

variable {scope : Scope} {t t' : Lowered} {s s' : Session} {ir : Ir.Expr}

section Parts

variable {node : Node}

theorem leaf_atom {a : Atom} (h : atom scope node a s = .ok ir s') :
    s' = s ∧ Leaf scope (.atom node a) ir := by
  cases a with
  | str text =>
    unfold atom at h
    cases ha : scope.layout.literals[node.id]? with
    | none =>
      rw [ha] at h
      exact (defect_ok.mp h).elim
    | some a =>
      rw [ha] at h
      cases a with
      | relative offset depth => exact (defect_ok.mp h).elim
      | absolute l n init =>
        obtain ⟨rfl, rfl⟩ := pure_ok.mp h
        exact ⟨rfl, .literal ha⟩
  | void | nil | bool | char | int =>
    obtain ⟨rfl, rfl⟩ := pure_ok.mp h
    exact ⟨rfl, .word rfl⟩

theorem leaf_cell (h : cell scope node d s = .ok ir s') :
    s' = s ∧ Leaf scope (.name node d) ir := by
  simp only [cell, bind_ok, accessOf_ok] at h
  obtain ⟨a, _, ⟨ha, rfl⟩, h⟩ := h
  cases a with
  | absolute l n init =>
    obtain ⟨rfl, rfl⟩ := pure_ok.mp h
    exact ⟨rfl, .static ha⟩
  | relative offset depth =>
    obtain ⟨frame, _, hf, h₁⟩ := bind_ok.mp h
    obtain ⟨hf', rfl⟩ := frameAt_ok.mp hf
    by_cases hd : depth ≤ frame.depth
    · rw [if_pos hd] at h₁
      obtain ⟨rfl, rfl⟩ := pure_ok.mp h₁
      exact ⟨rfl, .framed ha hf' hd⟩
    · rw [if_neg hd] at h₁
      exact (defect_ok.mp h₁).elim

theorem component_ok {base : Ir.Expr} (h : component scope node base d s = .ok ir s') :
    ∃ offset depth, scope.layout.accesses[d]? = some (.relative offset depth) ∧
      ir = wordAt base offset ∧ s' = s := by
  simp only [component, bind_ok, accessOf_ok] at h
  obtain ⟨a, _, ⟨ha, rfl⟩, h⟩ := h
  cases a with
  | absolute l n init => exact (defect_ok.mp h).elim
  | relative offset depth =>
    obtain ⟨rfl, rfl⟩ := pure_ok.mp h
    exact ⟨offset, depth, ha, rfl, rfl⟩

theorem callee_ok {l : Label} {link : Ir.Expr} (h : callee scope node d s = .ok (l, link) s') :
    s' = s ∧ ∃ target frame, scope.layout.frames[d]? = some target ∧
      scope.frame = some frame ∧ target.depth ≤ frame.depth + 1 ∧ l = target.label ∧
      link = follow (links target frame) (.temp frame.fp) := by
  simp only [callee, bind_ok, frameOf_ok, frameAt_ok] at h
  obtain ⟨target, _, ⟨ht, rfl⟩, frame, _, ⟨hf, rfl⟩, h⟩ := h
  split at h
  · next hd =>
    obtain ⟨h, rfl⟩ := pure_ok.mp h
    cases h
    exact ⟨rfl, target, frame, ht, hf, by omega, rfl, by rw [links, if_pos hd]; rfl⟩
  · next hd =>
    obtain ⟨inside, _, hi, h⟩ := bind_ok.mp h
    obtain ⟨hi, rfl⟩ := exactly_ok.mp hi
    have hin : inside = frame.depth + 1 := by
      unfold Frame.depthInside at hi
      split at hi
      · cases hi
        rfl
      · cases hi
    subst hin
    split at h
    · next hle =>
      obtain ⟨h, rfl⟩ := pure_ok.mp h
      cases h
      exact ⟨rfl, target, frame, ht, hf, hle, rfl, by rw [links, if_neg hd]⟩
    · exact (defect_ok.mp h).elim

end Parts

section Runs

-- the proofs below rewrite with the equations of the recursion, which are derived here, once
attribute [local simp] expr arguments block stmt stmts function functions

mutual

theorem expr_lowers {scope : Scope} :
    ∀ {e : Expr} {t t' : Lowered} {s s' : Session} {ir : Ir.Expr},
      expr scope e t s = .ok (ir, t') s' → Lowers scope (.expr e ir) t s t' s'
  | .atom node a, _, _, _, _, _, h => by
    have hrun := h
    simp only [expr, keep_ok, stateT_lift_ok] at hrun
    obtain ⟨_, ⟨ha, rfl⟩, rfl⟩ := hrun
    obtain ⟨rfl, hleaf⟩ := leaf_atom ha
    exact .entered h (.leaf hleaf)
  | .name node d, _, _, _, _, _, h => by
    have hrun := h
    simp only [expr, keep_ok, stateT_lift_ok] at hrun
    obtain ⟨_, ⟨hd, rfl⟩, rfl⟩ := hrun
    obtain ⟨rfl, hleaf⟩ := leaf_cell hd
    exact .entered h (.leaf hleaf)
  | .index node arr idx, _, _, _, _, _, h => by
    have hrun := h
    simp only [expr, keep_ok, stateT_bind_ok, stateT_lift_ok, stateT_pure_ok, address_ok,
      exactly_ok] at hrun
    obtain ⟨_, ⟨_, t₁, s₁, ha, base, _, _, ⟨⟨rfl, rfl⟩, rfl⟩, i, t₂, _, hi, n, _, _,
      ⟨⟨hn, rfl⟩, rfl⟩, rfl, rfl, rfl⟩, rfl⟩ := hrun
    exact .entered h (.join (.index hn) (expr_lowers ha) (expr_lowers hi))
  | .field node base d, _, _, _, _, _, h => by
    have hrun := h
    simp only [expr, keep_ok, stateT_bind_ok, stateT_lift_ok, address_ok] at hrun
    obtain ⟨_, ⟨_, t₁, s₁, hb, a, _, _, ⟨⟨rfl, rfl⟩, rfl⟩, hc, rfl⟩, rfl⟩ := hrun
    obtain ⟨offset, depth, hd, rfl, rfl⟩ := component_ok hc
    exact .entered h (.wrap (.field hd) (expr_lowers hb))
  | .binary node op lhs rhs, _, _, _, _, _, h => by
    have hrun := h
    simp only [expr, keep_ok, stateT_bind_ok, stateT_pure_ok] at hrun
    obtain ⟨_, ⟨l, t₁, s₁, hl, r, t₂, _, hr, rfl, rfl, rfl⟩, rfl⟩ := hrun
    exact .entered h (.join .binary (expr_lowers hl) (expr_lowers hr))
  | .unary node op e, _, _, _, _, _, h => by
    have hrun := h
    cases op with
    | plus =>
      simp only [expr, keep_ok] at hrun
      obtain ⟨t₁, hv, rfl⟩ := hrun
      exact .entered h (.wrap .plus (expr_lowers hv))
    | minus =>
      simp only [expr, keep_ok, stateT_bind_ok, stateT_pure_ok] at hrun
      obtain ⟨_, ⟨v, t₁, _, hv, rfl, rfl, rfl⟩, rfl⟩ := hrun
      exact .entered h (.wrap .minus (expr_lowers hv))
    | not =>
      simp only [expr, keep_ok, stateT_bind_ok, stateT_pure_ok] at hrun
      obtain ⟨_, ⟨v, t₁, _, hv, rfl, rfl, rfl⟩, rfl⟩ := hrun
      exact .entered h (.wrap .not (expr_lowers hv))
    | addressOf =>
      simp only [expr, keep_ok, stateT_bind_ok, stateT_lift_ok, address_ok] at hrun
      obtain ⟨_, ⟨v, t₁, _, hv, ⟨rfl, rfl⟩, rfl⟩, rfl⟩ := hrun
      exact .entered h (.wrap .addressOf (expr_lowers hv))
    | new | del =>
      simp only [expr, keep_ok, stateT_bind_ok, stateT_lift_ok, stateT_pure_ok, namedLabel_ok,
        frameAt_ok] at hrun
      obtain ⟨_, ⟨l, _, _, ⟨⟨rfl, rfl⟩, rfl⟩, frame, _, _, ⟨⟨hf, rfl⟩, rfl⟩, v, t₁, _, hv, rfl,
        rfl, rfl⟩, rfl⟩ := hrun
      exact .entered h (.runtime (by simp) hf (expr_lowers hv))
  | .deref node e, _, _, _, _, _, h => by
    have hrun := h
    simp only [expr, keep_ok, stateT_bind_ok, stateT_pure_ok] at hrun
    obtain ⟨_, ⟨v, t₁, _, hv, rfl, rfl, rfl⟩, rfl⟩ := hrun
    exact .entered h (.wrap .deref (expr_lowers hv))
  | .call node f args, _, _, _, _, _, h => by
    have hrun := h
    simp only [expr, keep_ok, stateT_bind_ok, stateT_lift_ok, stateT_pure_ok, Prod.exists] at hrun
    obtain ⟨_, ⟨l, link, _, s₁, ⟨hc, rfl⟩, os, vs, t₁, _, ha, rfl, rfl, rfl⟩, rfl⟩ := hrun
    obtain ⟨rfl, target, frame, ht, hf, hle, rfl, rfl⟩ := callee_ok hc
    exact .entered h (.call ht hf hle (arguments_lowers ha))
  | .cast node ty e, _, _, _, _, _, h => by
    have hrun := h
    simp only [expr, keep_ok, stateT_bind_ok, stateT_pure_ok] at hrun
    obtain ⟨_, ⟨v, t₁, _, hv, rfl, rfl, rfl⟩, rfl⟩ := hrun
    refine .entered h (.wrap ?_ (expr_lowers hv))
    cases hty : ty.isChar with
    | true => exact .char hty
    | false => exact .cast hty
  | .block node body, _, _, _, _, _, h => by
    have hrun := h
    simp only [expr, keep_ok, stateT_bind_ok, stateT_pure_ok, Prod.exists] at hrun
    obtain ⟨_, ⟨ss, v, t₁, _, hb, rfl, rfl, rfl⟩, rfl⟩ := hrun
    exact .entered h (.block (block_lowers hb))
  | .scope node e decls, _, _, _, _, _, h => by
    have hrun := h
    simp only [expr, keep_ok, stateT_bind_ok] at hrun
    obtain ⟨t₂, ⟨_, t₁, s₁, hf, he⟩, rfl⟩ := hrun
    exact .entered h (.scope (functions_lowers hf) (expr_lowers he))

theorem arguments_lowers {scope : Scope} :
    ∀ {args : List Expr} {offset : Word} {t t' : Lowered} {s s' : Session} {os : List Word}
      {vs : List Ir.Expr}, arguments scope offset args t s = .ok ((os, vs), t') s' →
      Lowers scope (.arguments offset args os vs) t s t' s'
  | [], _, _, _, _, _, _, _, h => by
    simp only [arguments, stateT_pure_ok, Prod.mk.injEq] at h
    obtain ⟨⟨rfl, rfl⟩, rfl, rfl⟩ := h
    exact .noArguments
  | a :: as, _, _, _, _, _, _, _, h => by
    simp only [arguments, stateT_bind_ok, stateT_lift_ok, stateT_pure_ok, exactly_ok,
      Prod.exists, Prod.mk.injEq] at h
    obtain ⟨v, t₁, s₁, hv, n, _, _, ⟨⟨hn, rfl⟩, rfl⟩, next, _, _, ⟨⟨hnext, rfl⟩, rfl⟩, os, vs, _,
      _, has, ⟨rfl, rfl⟩, rfl, rfl⟩ := h
    exact .argument (expr_lowers hv) hn hnext (arguments_lowers has)

theorem block_lowers {scope : Scope} :
    ∀ {ss : List Stmt} {t t' : Lowered} {s s' : Session} {xs : List Ir.Stmt} {v : Ir.Expr},
      block scope ss t s = .ok ((xs, v), t') s' → Lowers scope (.block ss xs v) t s t' s'
  | [], _, _, _, _, _, _, h => by
    simp only [block, stateT_pure_ok, Prod.mk.injEq] at h
    obtain ⟨⟨rfl, rfl⟩, rfl, rfl⟩ := h
    exact .noResult
  | [.eval mark e], _, _, _, _, _, _, h => by
    simp only [block, stateT_bind_ok, stateT_pure_ok, keepStmt_ok, Prod.mk.injEq] at h
    obtain ⟨v, t₁, _, hv, _, _, _, ⟨_, ⟨rfl, rfl, rfl⟩, rfl⟩, ⟨rfl, rfl⟩, rfl, rfl⟩ := h
    exact .result (expr_lowers hv)
  | .assign .. :: _, _, _, _, _, _, _, h | .cond .. :: _, _, _, _, _, _, _, h
  | .loop .. :: _, _, _, _, _, _, _, h | .eval .. :: _ :: _, _, _, _, _, _, _, h => by
    simp only [block, stateT_bind_ok, stateT_pure_ok, Prod.exists, Prod.mk.injEq] at h
    obtain ⟨x, t₁, s₁, hx, ys, v, _, _, hys, ⟨rfl, rfl⟩, rfl, rfl⟩ := h
    exact .next (by simp) (stmt_lowers hx) (block_lowers hys)

theorem stmt_lowers {scope : Scope} :
    ∀ {st : Stmt} {t t' : Lowered} {s s' : Session} {x : Ir.Stmt},
      stmt scope st t s = .ok (x, t') s' → Lowers scope (.stmt st x) t s t' s'
  | .assign mark dst src, _, _, _, _, _, h => by
    simp only [stmt, keepStmt_ok, stateT_bind_ok, stateT_pure_ok] at h
    obtain ⟨_, ⟨d, t₁, s₁, hd, v, t₂, _, hv, rfl, rfl, rfl⟩, rfl⟩ := h
    exact .assign (expr_lowers hd) (expr_lowers hv)
  | .eval mark e, _, _, _, _, _, h => by
    simp only [stmt, keepStmt_ok, stateT_bind_ok, stateT_pure_ok] at h
    obtain ⟨_, ⟨v, t₁, _, hv, rfl, rfl, rfl⟩, rfl⟩ := h
    exact .eval (expr_lowers hv)
  | .cond mark test yes no, _, _, _, _, _, h => by
    simp only [stmt, keepStmt_ok, stateT_bind_ok, stateT_lift_ok, stateT_pure_ok,
      newLabel_ok] at h
    obtain ⟨_, ⟨_, _, _, ⟨⟨rfl, rfl⟩, rfl⟩, _, _, _, ⟨⟨rfl, rfl⟩, rfl⟩, _, _, _,
      ⟨⟨rfl, rfl⟩, rfl⟩, c, t₁, s₁, hc, ys, t₂, s₂, hys, ns, t₃, _, hns, rfl, rfl, rfl⟩, rfl⟩ := h
    refine .cond (expr_lowers hc) (stmts_lowers hys) (stmts_lowers hns) ?_
    simp only [Names.newLabel_labels, Array.size_push]
  | .loop mark test body, _, _, _, _, _, h => by
    simp only [stmt, keepStmt_ok, stateT_bind_ok, stateT_lift_ok, stateT_pure_ok,
      newLabel_ok] at h
    obtain ⟨_, ⟨_, _, _, ⟨⟨rfl, rfl⟩, rfl⟩, _, _, _, ⟨⟨rfl, rfl⟩, rfl⟩, _, _, _,
      ⟨⟨rfl, rfl⟩, rfl⟩, c, t₁, s₁, hc, ss, t₂, _, hss, rfl, rfl, rfl⟩, rfl⟩ := h
    refine .loop (expr_lowers hc) (stmts_lowers hss) ?_
    simp only [Names.newLabel_labels, Array.size_push]

theorem stmts_lowers {scope : Scope} :
    ∀ {ss : List Stmt} {t t' : Lowered} {s s' : Session} {xs : List Ir.Stmt},
      stmts scope ss t s = .ok (xs, t') s' → Lowers scope (.stmts ss xs) t s t' s'
  | [], _, _, _, _, _, h => by
    simp only [stmts, stateT_pure_ok] at h
    obtain ⟨rfl, rfl, rfl⟩ := h
    exact .noStmts
  | st :: ss, _, _, _, _, _, h => by
    simp only [stmts, stateT_bind_ok, stateT_pure_ok] at h
    obtain ⟨x, t₁, s₁, hx, ys, _, _, hys, rfl, rfl, rfl⟩ := h
    exact .stmt (stmt_lowers hx) (stmts_lowers hys)

theorem functions_lowers {scope : Scope} :
    ∀ {ds : List Decl} {t t' : Lowered} {s s' : Session},
      functions scope ds t s = .ok ((), t') s' → Lowers scope (.functions ds) t s t' s'
  | [], _, _, _, _, h => by
    simp only [functions, stateT_pure_ok, true_and] at h
    obtain ⟨rfl, rfl⟩ := h
    exact .noFunctions
  | .var v :: ds, _, _, _, _, h => by
    simp only [functions, function, stateT_bind_ok, stateT_pure_ok] at h
    obtain ⟨_, _, _, ⟨-, rfl, rfl⟩, hds⟩ := h
    exact .var (functions_lowers hds)
  | .foreign head :: ds, _, _, _, _, h => by
    simp only [functions, function, stateT_bind_ok, stateT_pure_ok] at h
    obtain ⟨_, _, _, ⟨-, rfl, rfl⟩, hds⟩ := h
    exact .foreign (functions_lowers hds)
  | .fn head body :: ds, _, _, _, _, h => by
    simp only [functions, function, stateT_bind_ok, stateT_lift_ok, stateT_pure_ok, frameOf_ok,
      note_ok] at h
    obtain ⟨_, t₁, s₁, ⟨frame, _, _, ⟨⟨hf, rfl⟩, rfl⟩, _, _, _, ⟨rfl, rfl⟩, ir, _, _, hb, -, rfl,
      rfl⟩, hds⟩ := h
    refine .fn hf ?_ (expr_lowers hb) (functions_lowers hds)
    rfl

end

end Runs

/-! ## No code is a temporary -/

/-- The code of an expression is no temporary. -/
def Part.Solid : Part → Prop
  | .code _ ir | .expr _ ir => ir.Solid
  | _ => True

theorem Lowers.solid {p : Part} (h : Lowers scope p t s t' s') : p.Solid := by
  induction h with
  | entered _ _ ih | scope _ _ _ ih => exact ih
  | leaf h => cases h <;> trivial
  | wrap h _ ih =>
    cases h with
    | field | minus | not | char => trivial
    | plus | addressOf | deref | cast => exact ih
  | join h => cases h <;> trivial
  | _ => trivial

/-! ## What changes -/

/-- From one table and session to another: names grew, these labels were drawn, each once, and
code was entered under these nodes only. -/
structure Change (ids : List NodeId) (labels : List Label) (t : Lowered) (s : Session)
    (t' : Lowered) (s' : Session) : Prop where
  supplies : s.names.Supplies s'.names labels
  exprs : ∀ id, id ∉ ids → t'.exprs[id]? = t.exprs[id]?

namespace Change

variable {ids ids' : List NodeId} {labels labels' : List Label} {t t₁ t' : Lowered}
  {s s₁ s' : Session}

theorem names (h : Change ids labels t s t' s') : s.names ≤ s'.names := h.supplies.le

theorem refl (t : Lowered) (s : Session) : Change [] [] t s t s :=
  ⟨Names.supplies_nil (Names.le_refl _), fun _ _ => rfl⟩

theorem trans (h : Change ids labels t s t₁ s₁) (h' : Change ids' labels' t₁ s₁ t' s') :
    Change (ids ++ ids') (labels ++ labels') t s t' s' where
  supplies := h.supplies.append h'.supplies
  exprs id hid := by
    rw [List.mem_append, not_or] at hid
    rw [h'.exprs id hid.2, h.exprs id hid.1]

theorem entry (h : Change ids labels t s t' s') (node : Node) (ir : Ir.Expr) :
    Change (node.id :: ids) labels t s (entry t' node ir) s' where
  supplies := h.supplies
  exprs id hid := by
    rw [List.mem_cons, not_or] at hid
    rw [Table.getElem?_insert_of_ne (Ne.symm hid.1), h.exprs id hid.2]

theorem stmts {table : Table NodeId Ir.Stmt} (h : Change ids labels t s t' s') :
    Change ids labels t s { t' with stmts := table } s' := ⟨h.supplies, h.exprs⟩

theorem perm (h : Change ids labels t s t' s') (hp : labels.Perm labels') :
    Change ids labels' t s t' s' := ⟨h.supplies.perm hp, h.exprs⟩

theorem mono (h : Change ids labels t s t' s') (hids : ids ⊆ ids') :
    Change ids' labels t s t' s' := ⟨h.supplies, fun id hid => h.exprs id fun hm => hid (hids hm)⟩

theorem drop (h : Change ids labels t s t' s') : Change ids [] t s t' s' :=
  ⟨Names.supplies_nil h.names, h.exprs⟩

theorem of_le (h : Change ids labels t s₁ t' s') (hle : s.names ≤ s₁.names) :
    Change ids labels t s t' s' := ⟨h.supplies.of_le hle, h.exprs⟩

theorem drawn (t : Lowered) (s : Session) :
    Change [] [⟨s.names.labels.size⟩, ⟨s.names.labels.size + 1⟩, ⟨s.names.labels.size + 2⟩] t s t
      (drawnLabels s) := by
  have hthree := ((Names.supplies_newLabel s.names).append (Names.supplies_newLabel _)).append
    (Names.supplies_newLabel _)
  simp only [Names.newLabel_labels, Array.size_push] at hthree
  exact ⟨hthree, fun _ _ => rfl⟩

end Change

@[simp] theorem labels_follow (n : Nat) (e : Ir.Expr) : (follow n e).labels = e.labels := by
  induction n generalizing e with
  | zero => rfl
  | succ n ih => rw [follow, ih, Ir.Expr.labels]

/-- The nodes of expressions. -/
def ids (es : List Expr) : List NodeId := es.map Expr.id

@[simp] theorem ids_nil : ids [] = [] := rfl

@[simp] theorem ids_cons (e : Expr) (es : List Expr) : ids (e :: es) = e.id :: ids es := rfl

@[simp] theorem ids_append (es es' : List Expr) : ids (es ++ es') = ids es ++ ids es' :=
  List.map_append

theorem throughout_eq (e : Expr) : e.throughout = e :: e.throughout.tail := by
  cases e <;> rfl

/-- The expressions of a part, those in the bodies of functions included. -/
@[simp] def Part.throughout : Part → List Expr
  | .code e _ => e.throughout.tail
  | .expr e _ => e.throughout
  | .arguments _ args _ _ => Expr.listThroughout args
  | .block ss _ _ | .stmts ss _ => Stmt.listThroughout ss
  | .stmt st _ => st.throughout
  | .functions ds => Decl.listThroughout ds

@[simp] def Part.labels : Part → List Label
  | .code _ ir | .expr _ ir => ir.labels
  | .arguments _ _ _ vs => Ir.Expr.listLabels vs
  | .block _ xs v => Ir.Stmt.listLabels xs ++ v.labels
  | .stmt _ x => x.labels
  | .stmts _ xs => Ir.Stmt.listLabels xs
  | .functions _ => []

section Shape

variable {e e' e₁ e₂ : Expr} {v v₁ v₂ : Ir.Expr}

theorem Leaf.throughout (h : Leaf scope e ir) : e.throughout.tail = [] := by
  cases h <;> rfl

theorem Leaf.labels (h : Leaf scope e ir) : ir.labels = [] := by
  cases h <;> simp [wordAt, Ir.Expr.labels]

theorem Wrap.throughout (h : Wrap scope e e' v ir) : e.throughout.tail = e'.throughout := by
  cases h <;> rfl

theorem Wrap.labels (h : Wrap scope e e' v ir) : ir.labels = v.labels := by
  cases h <;> simp [wordAt, Ir.Expr.labels]

theorem Join.throughout (h : Join e e₁ e₂ v₁ v₂ ir) :
    e.throughout.tail = e₁.throughout ++ e₂.throughout := by
  cases h <;> rfl

theorem Join.labels (h : Join e e₁ e₂ v₁ v₂ ir) : ir.labels = v₁.labels ++ v₂.labels := by
  cases h <;> simp [Ir.Expr.labels]

end Shape

/-- The labels of a conditional statement are those drawn for it and those of its parts. -/
theorem labels_cond (c : Ir.Expr) (ys ns : List Ir.Stmt) (l₁ l₂ l₃ : Label) :
    ([l₁, l₂, l₃] ++ c.labels ++ Ir.Stmt.listLabels ys ++ Ir.Stmt.listLabels ns).Perm
      (Ir.Stmt.seq ([Ir.Stmt.branch c l₁ l₂, Ir.Stmt.label l₁] ++ ys ++
        [Ir.Stmt.jump l₃, Ir.Stmt.label l₂] ++ ns ++ [Ir.Stmt.label l₃])).labels := by
  refine List.perm_iff_count.mpr fun l => ?_
  simp only [Ir.Stmt.labels, Ir.Stmt.listLabels, Ir.Stmt.listLabels_append, List.count_append,
    List.count_cons, List.count_nil]
  omega

theorem labels_loop (c : Ir.Expr) (ss : List Ir.Stmt) (l₁ l₂ l₃ : Label) :
    ([l₁, l₂, l₃] ++ c.labels ++ Ir.Stmt.listLabels ss).Perm
      (Ir.Stmt.seq ([Ir.Stmt.label l₁, Ir.Stmt.branch c l₂ l₃, Ir.Stmt.label l₂] ++ ss ++
        [Ir.Stmt.jump l₁, Ir.Stmt.label l₃])).labels := by
  refine List.perm_iff_count.mpr fun l => ?_
  simp only [Ir.Stmt.labels, Ir.Stmt.listLabels, Ir.Stmt.listLabels_append, List.count_append,
    List.count_cons, List.count_nil]
  omega

theorem Lowers.change {p : Part}
    (h : Lowers scope p t s t' s') : Change (ids p.throughout) p.labels t s t' s' := by
  induction h with
  | entered _ _ ih =>
    rw [Part.throughout, throughout_eq]
    exact ih.entry _ _
  | leaf h => simpa [h.throughout, h.labels] using Change.refl _ _
  | wrap h _ ih => simpa [h.throughout, h.labels] using ih
  | join h _ _ ih₁ ih₂ => simpa [h.throughout, h.labels] using ih₁.trans ih₂
  | runtime _ _ _ ih =>
    simpa [Expr.throughout, Ir.Expr.labels, Ir.Expr.listLabels] using
      ih.of_le (Names.le_named _ _)
  | call _ _ _ _ ih =>
    simpa [Expr.throughout, Ir.Expr.labels, Ir.Expr.listLabels] using ih
  | block _ ih => simpa [Expr.throughout, Ir.Expr.labels, Ir.Stmt.labels] using ih
  | scope _ _ ih₁ ih₂ =>
    refine (ih₁.trans ih₂).mono ?_
    simp [Expr.throughout]
  | noArguments | noResult | noStmts | noFunctions => exact Change.refl _ _
  | argument _ _ _ _ ih₁ ih₂ =>
    simpa [Expr.listThroughout, Ir.Expr.listLabels] using ih₁.trans ih₂
  | result _ ih =>
    refine Change.stmts ?_
    simpa [Stmt.listThroughout, Stmt.throughout, Ir.Stmt.listLabels] using ih
  | next _ _ _ ih₁ ih₂ | stmt _ _ ih₁ ih₂ =>
    simpa [Stmt.listThroughout, Ir.Stmt.listLabels] using ih₁.trans ih₂
  | assign _ _ ih₁ ih₂ =>
    refine Change.stmts ?_
    simpa [Stmt.throughout, Ir.Stmt.labels] using ih₁.trans ih₂
  | eval _ ih =>
    refine Change.stmts ?_
    simpa [Stmt.throughout, Ir.Stmt.labels] using ih
  | cond _ _ _ hx ih₁ ih₂ ih₃ =>
    have hall := (((Change.drawn _ _).trans ih₁).trans ih₂).trans ih₃
    refine ((hall.mono ?_).perm (hx ▸ labels_cond ..)).stmts
    simp [Stmt.throughout]
  | loop _ _ hx ih₁ ih₂ =>
    have hall := ((Change.drawn _ _).trans ih₁).trans ih₂
    refine ((hall.mono ?_).perm (hx ▸ labels_loop ..)).stmts
    simp [Stmt.throughout]
  | var _ ih | foreign _ ih => exact ih
  | fn _ hs _ _ ih₁ ih₂ =>
    simpa [Decl.listThroughout, Decl.throughout] using
      ((ih₁.of_le (hs ▸ Names.le_refl _)).drop).trans ih₂

/-! ## The code of every function -/

/-- Lowering an expression enters its code. -/
theorem expr_entry {e : Expr}
    (h : expr scope e t s = .ok (ir, t') s') : t'.exprs[e.id]? = some ir := by
  have hkeep : ∃ t₁, t' = entry t₁ e.node ir := by
    cases e <;> simp only [expr, keep_ok] at h <;> obtain ⟨t₁, -, rfl⟩ := h <;> exact ⟨t₁, rfl⟩
  obtain ⟨t₁, rfl⟩ := hkeep
  exact Std.ExtTreeMap.getElem?_insert_self

/-- A table has the code of a body, made with the frame of its function. -/
def HasBody (layout : Layout) (names : Names) (t : Lowered) (head : Head) (body : Expr) : Prop :=
  ∃ frame ir t₁ t₂ s₁ s₂, layout.frames[head.id]? = some frame ∧
    expr { layout, frame := some frame } body t₁ s₁ = .ok (ir, t₂) s₂ ∧ s₂.names ≤ names ∧
    t.exprs[body.id]? = some ir

/-- A table has the code of these functions, whose bodies are among these nodes. -/
def HasBodies (layout : Layout) (names : Names) (t : Lowered) (ids : List NodeId)
    (fs : List (Head × Expr)) : Prop :=
  ∀ f ∈ fs, HasBody layout names t f.1 f.2 ∧ f.2.id ∈ ids

def bodyLabels (t : Lowered) (fs : List (Head × Expr)) : List Label :=
  fs.flatMap fun f => (t.exprs[f.2.id]?.map Ir.Expr.labels).getD []

theorem bodyLabels_append (t : Lowered) (fs fs' : List (Head × Expr)) :
    bodyLabels t (fs ++ fs') = bodyLabels t fs ++ bodyLabels t fs' := List.flatMap_append

/-- From one table and session to another code was entered under these nodes only, that of these
functions among it, and these labels were drawn together with those in the bodies of the
functions. -/
structure Fills (layout : Layout) (is : List NodeId) (labels : List Label)
    (fs : List (Head × Expr)) (t : Lowered) (s : Session) (t' : Lowered) (s' : Session) : Prop
    extends Change is (labels ++ bodyLabels t' fs) t s t' s' where
  bodies : HasBodies layout s'.names t' is fs

namespace Fills

variable {layout : Layout} {is is' : List NodeId} {labels labels' : List Label}
  {fs fs' : List (Head × Expr)} {t t₁ t' : Lowered} {s s₁ s' : Session}

theorem of_change (h : Change is labels t s t' s') : Fills layout is labels [] t s t' s' :=
  ⟨h.perm (by simp [bodyLabels]), fun _ hf => absurd hf List.not_mem_nil⟩

/-- Code under other nodes leaves the bodies as they are. -/
theorem bodyLabels_eq (h : Fills layout is labels fs t s t₁ s₁)
    (hkeep : ∀ id ∈ is, t'.exprs[id]? = t₁.exprs[id]?) :
    bodyLabels t' fs = bodyLabels t₁ fs := by
  refine List.flatMap_congr fun f hf => ?_
  rw [hkeep _ (h.bodies f hf).2]

theorem hasBodies_next (h : Fills layout is labels fs t s t₁ s₁)
    (hkeep : ∀ id ∈ is, t'.exprs[id]? = t₁.exprs[id]?) (hle : s₁.names ≤ s'.names) :
    HasBodies layout s'.names t' is fs := by
  intro f hf
  obtain ⟨⟨frame, ir, u, u', r, r', hframe, hir, hler, hent⟩, hid⟩ := h.bodies f hf
  exact ⟨⟨frame, ir, u, u', r, r', hframe, hir, Names.le_trans hler hle, by rw [hkeep _ hid, hent]⟩,
    hid⟩

theorem trans (h : Fills layout is labels fs t s t₁ s₁)
    (h' : Fills layout is' labels' fs' t₁ s₁ t' s') (hnd : (is ++ is').Nodup) :
    Fills layout (is ++ is') (labels ++ labels') (fs ++ fs') t s t' s' := by
  have hkeep : ∀ id ∈ is, t'.exprs[id]? = t₁.exprs[id]? := fun id hid =>
    h'.exprs id fun hid' => (List.nodup_append.mp hnd).2.2 id hid id hid' rfl
  refine ⟨(h.toChange.trans h'.toChange).perm ?_, fun f hf => ?_⟩
  · rw [bodyLabels_append, h.bodyLabels_eq hkeep, List.append_assoc, List.append_assoc]
    refine List.Perm.append_left labels ?_
    rw [← List.append_assoc, ← List.append_assoc]
    exact List.Perm.append_right _ List.perm_append_comm
  · rcases List.mem_append.mp hf with hf | hf
    · obtain ⟨hbody, hid⟩ := h.hasBodies_next hkeep h'.names f hf
      exact ⟨hbody, List.mem_append_left _ hid⟩
    · exact ⟨(h'.bodies f hf).1, List.mem_append_right _ (h'.bodies f hf).2⟩

theorem entry (h : Fills layout is labels fs t s t' s') (node : Node) (ir : Ir.Expr)
    (hnd : (node.id :: is).Nodup) :
    Fills layout (node.id :: is) labels fs t s (entry t' node ir) s' := by
  have hkeep : ∀ id ∈ is, (Lowering.entry t' node ir).exprs[id]? = t'.exprs[id]? := by
    refine fun id hid => Table.getElem?_insert_of_ne ?_
    rintro rfl
    exact (List.nodup_cons.mp hnd).1 hid
  refine ⟨?_, fun f hf => ?_⟩
  · rw [h.bodyLabels_eq hkeep]
    exact h.toChange.entry node ir
  · obtain ⟨hbody, hid⟩ := h.hasBodies_next hkeep (Names.le_refl _) f hf
    exact ⟨hbody, List.mem_cons_of_mem _ hid⟩

theorem stmts {table : Table NodeId Ir.Stmt} (h : Fills layout is labels fs t s t' s') :
    Fills layout is labels fs t s { t' with stmts := table } s' := ⟨h.toChange.stmts, h.bodies⟩

theorem relabel (h : Fills layout is labels fs t s t' s') (hp : labels.Perm labels') :
    Fills layout is labels' fs t s t' s' := ⟨h.toChange.perm (hp.append_right _), h.bodies⟩

theorem reorder (h : Fills layout is labels fs t s t' s') (hp : is.Perm is') :
    Fills layout is' labels fs t s t' s' :=
  ⟨h.toChange.mono hp.subset, fun f hf => ⟨(h.bodies f hf).1, hp.mem_iff.mp (h.bodies f hf).2⟩⟩

theorem of_le (h : Fills layout is labels fs t s₁ t' s') (hle : s.names ≤ s₁.names) :
    Fills layout is labels fs t s t' s' := ⟨h.toChange.of_le hle, h.bodies⟩

theorem close {head : Head} {body : Expr} {ir : Ir.Expr}
    (h : Fills layout is ir.labels fs t s t' s') (hbody : HasBody layout s'.names t' head body)
    (hir : t'.exprs[body.id]? = some ir) (hid : body.id ∈ is) :
    Fills layout is [] (fs ++ [(head, body)]) t s t' s' := by
  refine ⟨h.toChange.perm ?_, fun f hf => ?_⟩
  · have hown : bodyLabels t' [(head, body)] = ir.labels := by
      simp [bodyLabels, hir]
    rw [List.nil_append, bodyLabels_append, hown]
    exact List.perm_append_comm
  · rcases List.mem_append.mp hf with hf | hf
    · exact h.bodies f hf
    · obtain rfl := List.mem_singleton.mp hf
      exact ⟨hbody, hid⟩

end Fills

@[simp] def Part.bodies : Part → List (Head × Expr)
  | .code e _ | .expr e _ => Routine.listFunctions e.routines
  | .arguments _ args _ _ => Routine.listFunctions (Expr.listRoutines args)
  | .block ss _ _ | .stmts ss _ => Routine.listFunctions (Stmt.listRoutines ss)
  | .stmt st _ => Routine.listFunctions st.routines
  | .functions ds => Routine.listFunctions (Decl.listRoutines ds)

theorem Leaf.routines {e : Expr} (h : Leaf scope e ir) :
    e.routines = [] := by
  cases h <;> rfl

theorem Wrap.routines {e e' : Expr} {v : Ir.Expr} (h : Wrap scope e e' v ir) :
    e.routines = e'.routines := by
  cases h <;> rfl

theorem Join.routines {e e₁ e₂ : Expr} {v₁ v₂ : Ir.Expr} (h : Join e e₁ e₂ v₁ v₂ ir) :
    e.routines = e₁.routines ++ e₂.routines := by
  cases h <;> rfl

theorem Lowers.fills {p : Part}
    (h : Lowers scope p t s t' s') (hnd : (ids p.throughout).Nodup) :
    Fills scope.layout (ids p.throughout) p.labels p.bodies t s t' s' := by
  induction h with
  | entered _ _ ih =>
    rw [Part.throughout, throughout_eq] at hnd ⊢
    exact (ih (List.nodup_cons.mp hnd).2).entry _ _ hnd
  | leaf h =>
    simpa [h.throughout, h.labels, h.routines, Routine.listFunctions] using
      Fills.of_change (Change.refl _ _)
  | wrap h _ ih =>
    simp only [Part.throughout, Part.labels, Part.bodies, h.throughout, h.labels,
      h.routines] at hnd ⊢
    exact ih hnd
  | join h _ _ ih₁ ih₂ =>
    simp only [Part.throughout, Part.labels, Part.bodies, h.throughout, h.labels, h.routines,
      ids_append, Routine.listFunctions_append] at hnd ⊢
    have hnd' := List.nodup_append.mp hnd
    exact (ih₁ hnd'.1).trans (ih₂ hnd'.2.1) hnd
  | runtime _ _ _ ih =>
    simpa [Expr.throughout, Expr.routines, Ir.Expr.labels, Ir.Expr.listLabels] using
      (ih hnd).of_le (Names.le_named _ _)
  | call _ _ _ _ ih =>
    simpa [Expr.throughout, Expr.routines, Ir.Expr.labels, Ir.Expr.listLabels] using ih hnd
  | block _ ih | var _ ih | foreign _ ih => exact ih hnd
  | scope _ _ ih₁ ih₂ =>
    simp only [Part.throughout, Part.bodies, Expr.throughout, List.tail_cons, ids_append,
      Expr.routines, Routine.listFunctions_append] at hnd ⊢
    have hnd' := List.nodup_append.mp hnd
    exact ((ih₁ hnd'.2.1).trans (ih₂ hnd'.1)
      (List.perm_append_comm.nodup_iff.mp hnd)).reorder List.perm_append_comm
  | noArguments | noResult | noStmts | noFunctions => exact Fills.of_change (Change.refl _ _)
  | argument _ _ _ _ ih₁ ih₂ | next _ _ _ ih₁ ih₂ | stmt _ _ ih₁ ih₂ =>
    simp only [Part.throughout, Part.labels, Part.bodies, Expr.listThroughout,
      Stmt.listThroughout, ids_append, Expr.listRoutines, Stmt.listRoutines,
      Routine.listFunctions_append, Ir.Expr.listLabels, Ir.Stmt.listLabels,
      List.append_assoc] at hnd ⊢
    have hnd' := List.nodup_append.mp hnd
    exact (ih₁ hnd'.1).trans (ih₂ hnd'.2.1) hnd
  | result _ ih =>
    simp only [Part.throughout, Part.bodies, Stmt.listThroughout, Stmt.throughout, Stmt.routines,
      Stmt.listRoutines, List.append_nil] at hnd ⊢
    exact (ih hnd).stmts
  | assign _ _ ih₁ ih₂ =>
    simp only [Part.throughout, Part.bodies, Stmt.throughout, ids_append, Stmt.routines,
      Routine.listFunctions_append] at hnd ⊢
    have hnd' := List.nodup_append.mp hnd
    exact ((ih₁ hnd'.1).trans (ih₂ hnd'.2.1) hnd).stmts
  | eval _ ih => exact (ih hnd).stmts
  | cond _ _ _ hx ih₁ ih₂ ih₃ =>
    simp only [Part.throughout, Part.bodies, Stmt.throughout, ids_append, Stmt.routines,
      Routine.listFunctions_append] at hnd ⊢
    have hnd₁ := List.nodup_append.mp hnd
    have hnd₂ := List.nodup_append.mp hnd₁.1
    have htest := (Fills.of_change (Change.drawn _ _)).trans (ih₁ hnd₂.1) hnd₂.1
    exact (((htest.trans (ih₂ hnd₂.2.1) hnd₁.1).trans (ih₃ hnd₁.2.1) hnd).relabel
      (hx ▸ labels_cond ..)).stmts
  | loop _ _ hx ih₁ ih₂ =>
    simp only [Part.throughout, Part.bodies, Stmt.throughout, ids_append, Stmt.routines,
      Routine.listFunctions_append] at hnd ⊢
    have hnd' := List.nodup_append.mp hnd
    have htest := (Fills.of_change (Change.drawn _ _)).trans (ih₁ hnd'.1) hnd'.1
    exact ((htest.trans (ih₂ hnd'.2.1) hnd).relabel (hx ▸ labels_loop ..)).stmts
  | @fn _ _ body frame ir _ t _ _ _ s₀ s₁ _ hframe hs h₁ _ ih₁ ih₂ =>
    simp only [Part.throughout, Part.bodies, Decl.listThroughout, Decl.throughout, ids_append,
      Decl.listRoutines, Decl.routine?, Option.toList_some, List.cons_append, List.nil_append,
      Routine.listFunctions, Routine.functions] at hnd ⊢
    have hnd' := List.nodup_append.mp hnd
    obtain ⟨hrun, -⟩ := h₁
    refine Fills.trans (Fills.close ((ih₁ hnd'.1).of_le (hs ▸ Names.le_refl _))
      ⟨frame, ir, t, _, s₀, s₁, hframe, hrun, Names.le_refl _, expr_entry hrun⟩ (expr_entry hrun)
      (List.mem_map_of_mem body.mem_throughout)) (ih₂ hnd'.2.1) hnd

end Lowering

end MmixBackend
