import MmixBackend.Proofs.Lowering
import MmixBackend.Proofs.Realization

/-!
# Lowered code realizes direct evaluation

The intermediate code of an expression, brought into canonical form, does what the direct
evaluation of the expression does; likewise for statements.  An expression of which the address
is wanted has the code of a memory access, and its address is what is accessed: the statement is
about the code with so many accesses taken off, and the evaluation with as many reads left out.

The proof is by induction on the typed tree.  What calls reach is an assumption; it holds at the
next level by induction on the fuel.
-/

namespace MmixBackend

open Typed Build Machine

/-- Code with so many accesses to memory taken off. -/
def Ir.Expr.strip : Nat → Ir.Expr → Option Ir.Expr
  | 0, e => some e
  | n + 1, .mem a => a.strip n
  | _ + 1, _ => none

/-- Nothing can be taken off code that is no access to memory. -/
theorem Ir.Expr.strip_plain {e a : Ir.Expr} {k : Nat} (hmem : ∀ b, e ≠ .mem b)
    (h : e.strip k = some a) : k = 0 ∧ a = e := by
  cases k with
  | zero => exact ⟨rfl, (Option.some.inj h).symm⟩
  | succ k =>
    cases e with
    | mem b => exact absurd rfl (hmem b)
    | const | name | temp | binary | unary | call | after => cases h

/-- One access can be taken off an access at a plain address. -/
theorem Ir.Expr.strip_access {e a : Ir.Expr} {k : Nat} (hmem : ∀ b, e ≠ .mem b)
    (h : (Ir.Expr.mem e).strip k = some a) : k = 0 ∧ a = .mem e ∨ k = 1 ∧ a = e := by
  cases k with
  | zero => exact Or.inl ⟨rfl, (Option.some.inj h).symm⟩
  | succ k =>
    obtain ⟨rfl, rfl⟩ := strip_plain hmem h
    exact Or.inr ⟨rfl, rfl⟩

namespace Machine.Site

/-- A running function has what lowering looked up. -/
structure Fits (σ : Site) (scope : Scope) : Prop where
  layout : σ.running.setting.layout = scope.layout
  frame : scope.frame = some σ.running.frame
  fp : σ.running.frame.fp = σ.body.chunk.frame.fp
  names : σ.image.names = σ.running.setting.names
  data : σ.image.data = σ.running.setting.data
  /-- Calls reach what the linkage says. -/
  function : ∀ {d frame}, scope.layout.frames[d]? = some frame →
    ∃ callee, σ.running.setting.linkage.function d = some callee ∧ σ.Reaches frame.label callee
  /-- So do allocation and release. -/
  runtime : ∀ {op l}, op = .new ∨ op = .del →
    σ.image.names.lookup (Lowering.runtimeName op) = some l →
    σ.Reaches l (σ.running.setting.linkage.runtime (Lowering.runtimeName op))

section Parts

variable {σ : Site} {x : Evaluation Word} {e a : Ir.Expr} {k : Nat}

/-- Code that is no access to memory has a value only. -/
theorem Implements.plain (h : σ.Implements x e) (hmem : ∀ b, e ≠ .mem b)
    (hs : e.strip k = some a) : σ.Implements (Evaluation.plain x k) a := by
  obtain ⟨rfl, rfl⟩ := Ir.Expr.strip_plain hmem hs
  exact h

/-- An access to memory has a value, and as its address what is accessed. -/
theorem Implements.reading (h : σ.Implements x e) (hmem : ∀ b, e ≠ .mem b)
    (hs : (Ir.Expr.mem e).strip k = some a) : σ.Implements (Evaluation.reading x k) a := by
  obtain ⟨rfl, rfl⟩ | ⟨rfl, rfl⟩ := Ir.Expr.strip_access hmem hs
  · exact h.mem
  · exact h

theorem Implements.follow (n : Nat) (h : σ.Implements x e) :
    σ.Implements (x >>= Evaluation.follow n) (Lowering.follow n e) := by
  induction n generalizing x e with
  | zero =>
    show σ.Implements (x >>= pure) e
    rw [bind_pure]
    exact h
  | succ n ih =>
    have h' := ih h.mem
    rw [bind_assoc] at h'
    exact h'

variable {scope : Scope}

theorem Fits.implements_follow (hσ : σ.Fits scope) (n : Nat) :
    σ.Implements (Evaluation.follow n σ.running.fp)
      (Lowering.follow n (.temp σ.running.frame.fp)) := by
  have h := (implements_fp (σ := σ)).follow n
  rw [pure_bind, ← hσ.fp] at h
  exact h

theorem Fits.implements_leaf (hσ : σ.Fits scope) {e : Expr} {ir : Ir.Expr}
    (h : Lowering.Leaf scope e ir) (hs : ir.strip k = some a) :
    σ.Implements (Evaluation.expr σ.running e k) a := by
  cases h with
  | @word node b v hb =>
    have hx : σ.Implements (Evaluation.atom σ.running node b) (.const v) := by
      cases b <;> cases hb <;> exact implements_const _
    rw [Evaluation.expr]
    exact hx.plain (by simp) hs
  | literal hl =>
    simp only [Evaluation.expr, Evaluation.atom, hσ.layout, hl]
    exact (implements_name hσ.data hσ.names _).plain (by simp) hs
  | static hd =>
    simp only [Evaluation.expr, Evaluation.cell, hσ.layout, hd]
    exact (implements_name hσ.data hσ.names _).reading (by simp) hs
  | @framed _ _ offset depth frame hd hf hdepth =>
    obtain rfl : σ.running.frame = frame := Option.some.inj (hσ.frame.symm.trans hf)
    simp only [Evaluation.expr, Evaluation.cell, hσ.layout, hd, if_pos hdepth]
    have hx := (hσ.implements_follow (σ.running.frame.depth - depth)).binary .add
      (implements_const offset)
    simp only [pure_bind] at hx
    exact hx.reading (by simp) hs

theorem Fits.implements_link (hσ : σ.Fits scope) {target frame : Frame}
    (hf : scope.frame = some frame) (hle : target.depth ≤ frame.depth + 1) :
    σ.Implements (Evaluation.link σ.running target.depth)
      (Lowering.follow (Lowering.links target frame) (.temp frame.fp)) := by
  obtain rfl : σ.running.frame = frame := Option.some.inj (hσ.frame.symm.trans hf)
  rw [Evaluation.link, Lowering.links]
  by_cases hd : target.depth = 0
  · rw [if_pos hd, if_pos hd]
    exact hσ.implements_follow 0
  · rw [if_neg hd, if_neg hd, if_pos hle]
    exact hσ.implements_follow _

/-- Allocation and release are calls with the frame pointer for a static link. -/
theorem Fits.implements_runtime (hσ : σ.Fits scope) {op : PrefixOp} (hop : op = .new ∨ op = .del)
    {frame : Frame} (hf : scope.frame = some frame) (h : σ.Implements x e) {l : Label}
    (hl : σ.image.names.lookup (Lowering.runtimeName op) = some l) :
    σ.Implements
      (do
        let v ← x
        Evaluation.invoke σ.running.run
          (σ.running.setting.linkage.runtime (Lowering.runtimeName op)) [0, Word.size]
          [σ.running.fp, v])
      (.call l [0, Word.size] [.temp frame.fp, e]) := by
  obtain rfl : σ.running.frame = frame := Option.some.inj (hσ.frame.symm.trans hf)
  have hargs : σ.ImplementsArgs [0, Word.size] _ [.temp σ.running.frame.fp, e] :=
    ImplementsArgs.cons (hσ.implements_follow 0) (ImplementsArgs.cons h implementsArgs_nil)
  have hx := hargs.call (hσ.runtime hop hl)
  simpa only [Evaluation.follow, pure_bind, bind_assoc] using hx

end Parts

/-! ## Trees -/

theorem block_cons_eq (c : Running) {st : Stmt} {ss : List Stmt}
    (hst : ∀ mark e, st = .eval mark e → ss ≠ []) :
    Evaluation.block c (st :: ss) = (do Evaluation.stmt c st; Evaluation.block c ss) := by
  rw [Evaluation.block]
  intro mark e he hss
  exact hst mark e he hss

/-- The code of a part does what its evaluation does.  Code whose address is wanted has accesses to
memory taken off, and its evaluation leaves out as many reads. -/
def Realizes (σ : Site) : Lowering.Part → Prop
  | .code e ir | .expr e ir => ∀ {k : Nat} {a : Ir.Expr}, ir.strip k = some a →
      σ.Implements (Evaluation.expr σ.running e k) a
  | .arguments offset args os vs =>
    σ.ImplementsArgs os (Evaluation.arguments σ.running offset args) vs
  | .block ss xs v => ∃ u x, σ.Performs u xs ∧ σ.Implements x v ∧
      Evaluation.block σ.running ss = (do u; x)
  | .stmt st x => σ.Performs (Evaluation.stmt σ.running st) [x]
  | .stmts ss xs => σ.Performs (Evaluation.stmts σ.running ss) xs
  | .functions _ => True

theorem Fits.implements_wrap {σ : Site} {scope : Scope} (hσ : σ.Fits scope) {e e' : Expr}
    {v ir : Ir.Expr} (h : Lowering.Wrap scope e e' v ir) (hv : σ.Realizes (.expr e' v)) :
    σ.Realizes (.code e ir) := by
  intro k a hs
  cases h with
  | @field _ _ _ _ offset _ hd =>
    have hx := (hv (k := 1) rfl).binary .add (implements_const offset)
    rw [Evaluation.expr]
    refine Implements.reading ?_ (by simp) hs
    simp only [pure_bind] at hx
    simp only [Evaluation.component, hσ.layout, hd, pure_bind]
    exact hx
  | plus =>
    rw [Evaluation.expr]
    exact hv hs
  | minus =>
    rw [Evaluation.expr]
    exact ((hv (k := 0) rfl).unary .neg).plain (by simp) hs
  | not =>
    rw [Evaluation.expr]
    exact ((hv (k := 0) rfl).unary .not).plain (by simp) hs
  | addressOf =>
    rw [Evaluation.expr]
    exact hv (k := k + 1) hs
  | deref =>
    cases k with
    | zero =>
      cases hs
      rw [Evaluation.expr]
      exact (hv (k := 0) rfl).mem
    | succ k =>
      rw [Evaluation.expr]
      exact hv hs
  | char hty =>
    have hx := (hv (k := 0) rfl).binary .mod (implements_const 256)
    simp only [pure_bind] at hx
    simp only [Evaluation.expr, hty, if_true]
    exact hx.plain (by simp) hs
  | cast hty =>
    simp only [Evaluation.expr, hty, Bool.false_eq_true, if_false]
    exact hv hs

theorem implements_join {σ : Site} {e e₁ e₂ : Expr} {v₁ v₂ ir : Ir.Expr}
    (h : Lowering.Join e e₁ e₂ v₁ v₂ ir) (h₁ : σ.Realizes (.expr e₁ v₁))
    (h₂ : σ.Realizes (.expr e₂ v₂)) : σ.Realizes (.code e ir) := by
  intro k a hs
  cases h with
  | @index _ _ _ _ _ n hsize =>
    have hx := (h₁ (k := 1) rfl).binary .add
      ((h₂ (k := 0) rfl).binary .mul (implements_const n))
    rw [Evaluation.expr]
    refine Implements.reading ?_ (by simp) hs
    simp only [pure_bind, bind_assoc] at hx
    simp only [Evaluation.sizeOf, hsize, pure_bind]
    exact hx
  | @binary _ op =>
    rw [Evaluation.expr]
    exact ((h₁ (k := 0) rfl).binary op (h₂ (k := 0) rfl)).plain (by simp) hs

theorem Fits.realizes {σ : Site} {scope : Scope} {p : Lowering.Part} {t t' : Lowered}
    {s s' : Session} (hσ : σ.Fits scope) (h : Lowering.Lowers scope p t s t' s')
    (hn : s'.names ≤ σ.image.names) : σ.Realizes p := by
  induction h with
  | entered _ _ ih => exact ih hσ hn
  | leaf h => exact fun {_ _} hs => hσ.implements_leaf h hs
  | wrap h _ ih => exact hσ.implements_wrap h (ih hσ hn)
  | join h _ h₂ ih₁ ih₂ =>
    exact implements_join h (ih₁ hσ (Names.le_trans h₂.change.names hn)) (ih₂ hσ hn)
  | runtime hop hf hv ih =>
    intro k a hs
    have hx := hσ.implements_runtime hop hf (ih hσ hn (k := 0) rfl)
      (Names.lookup_of_le (Names.le_trans hv.change.names hn) (Names.named_lookup _ _))
    rcases hop with rfl | rfl
    · rw [Evaluation.expr]
      exact hx.plain (by simp) hs
    · rw [Evaluation.expr]
      exact hx.plain (by simp) hs
  | call ht hf hle _ ih =>
    intro k a hs
    obtain ⟨callee, hcallee, hreach⟩ := hσ.function ht
    have hx := ((ImplementsArgs.cons (hσ.implements_link hf hle) (ih hσ hn)).call hreach).plain
      (by simp) hs
    simp only [Evaluation.expr, hσ.layout, ht, hcallee]
    simpa only [bind_assoc, pure_bind] using hx
  | block _ ih =>
    intro k a hs
    obtain ⟨u, x, hu, hx, heq⟩ := ih hσ hn
    rw [Evaluation.expr, heq]
    exact (hu.after hx).plain (by simp) hs
  | scope _ _ _ ih =>
    intro k a hs
    rw [Evaluation.expr]
    exact ih hσ hn hs
  | noArguments =>
    rw [Realizes, Evaluation.arguments]
    exact implementsArgs_nil
  | argument _ hsize hnext h₂ ih₁ ih₂ =>
    rw [Realizes, Evaluation.arguments]
    simp only [Evaluation.sizeOf, hsize, Evaluation.offsetBy, hnext, pure_bind]
    exact ImplementsArgs.cons (ih₁ hσ (Names.le_trans h₂.change.names hn) (k := 0) rfl)
      (ih₂ hσ hn)
  | noResult =>
    refine ⟨_, _, performs_nil, implements_const placeholder, ?_⟩
    rw [Evaluation.block, pure_bind]
  | result _ ih =>
    refine ⟨_, _, performs_nil, ih hσ hn (k := 0) rfl, ?_⟩
    rw [Evaluation.block, pure_bind]
  | next hst _ h₂ ih₁ ih₂ =>
    obtain ⟨u, y, hu, hy, heq⟩ := ih₂ hσ hn
    have hfirst := ih₁ hσ (Names.le_trans h₂.change.names hn)
    refine ⟨_, y, Performs.append hfirst hu, hy, ?_⟩
    rw [block_cons_eq _ hst, heq, bind_assoc]
  | assign h₁ h₂ ih₁ ih₂ =>
    rw [Realizes, Evaluation.stmt]
    intro loc r r' code hc
    -- only an access to memory can be moved into: no expression has a temporary as its code
    obtain ⟨addr, rfl⟩ | ⟨tmp, rfl⟩ := Ir.Stmt.canonize_move (Ir.Stmt.canonizeAll_singleton hc)
    · exact (ih₁ hσ (Names.le_trans h₂.change.names hn) (k := 1) rfl).store
        (ih₂ hσ hn (k := 0) rfl) hc
    · exact absurd rfl (h₁.solid.ne_temp tmp)
  | eval _ ih =>
    rw [Realizes, Evaluation.stmt]
    exact (ih hσ hn (k := 0) rfl).drop
  | cond _ h₂ h₃ hx ih₁ ih₂ ih₃ =>
    have hn₂ := Names.le_trans h₃.change.names hn
    have hn₁ := Names.le_trans h₂.change.names hn₂
    rw [Realizes, Evaluation.stmt, hx]
    exact ((ih₁ hσ hn₁ (k := 0) rfl).cond (ih₂ hσ hn₂) (ih₃ hσ hn)).seq
  | loop _ h₂ hx ih₁ ih₂ =>
    rw [Realizes, Evaluation.stmt, hx]
    exact ((ih₁ hσ (Names.le_trans h₂.change.names hn) (k := 0) rfl).loop (ih₂ hσ hn)).seq
  | noStmts =>
    rw [Realizes, Evaluation.stmts]
    exact performs_nil
  | stmt _ h₂ ih₁ ih₂ =>
    rw [Realizes, Evaluation.stmts]
    exact Performs.append (ih₁ hσ (Names.le_trans h₂.change.names hn)) (ih₂ hσ hn)
  | noFunctions | var | foreign | fn => trivial

end Machine.Site

end MmixBackend
