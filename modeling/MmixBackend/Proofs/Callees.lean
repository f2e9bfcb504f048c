import Mathlib.Data.Option.Basic
import MmixBackend.Proofs.Linking

/-!
# What code calls

The calls in a tree come out of canonization in the order of evaluation, and linear code has the
same ones.  Lowering calls functions under the labels of their frames, and allocation and release
under theirs.  So the code of a compiled program calls nothing else.
-/

namespace MmixBackend

open Typed Build

namespace Ir

/-! ## Calls are kept -/

mutual

/-- The labels that an expression calls, in the order of evaluation. -/
def Expr.callees : Expr → List Label
  | .const _ | .name _ | .temp _ => []
  | .mem a => a.callees
  | .binary _ l r => l.callees ++ r.callees
  | .unary _ e => e.callees
  | .call l _ args => Expr.listCallees args ++ [l]
  | .after s e => s.callees ++ e.callees

def Expr.listCallees : List Expr → List Label
  | [] => []
  | e :: es => e.callees ++ Expr.listCallees es

/-- The labels that a statement calls. -/
def Stmt.callees : Stmt → List Label
  | .move dst src => dst.callees ++ src.callees
  | .eval e => e.callees
  | .branch c _ _ => c.callees
  | .jump _ | .label _ => []
  | .seq ss => Stmt.listCallees ss

def Stmt.listCallees : List Stmt → List Label
  | [] => []
  | s :: ss => s.callees ++ Stmt.listCallees ss

end

@[simp] theorem Stmt.listCallees_append (ss ts : List Stmt) :
    Stmt.listCallees (ss ++ ts) = Stmt.listCallees ss ++ Stmt.listCallees ts := by
  induction ss with
  | nil => rfl
  | cons s ss ih => simp only [List.cons_append, Stmt.listCallees, ih, List.append_assoc]

theorem Stmt.mem_listCallees {l : Label} {ss : List Stmt} :
    l ∈ Stmt.listCallees ss ↔ ∃ s ∈ ss, l ∈ s.callees := by
  induction ss with
  | nil => simp [Stmt.listCallees]
  | cons s ss ih => simp [Stmt.listCallees, ih]

@[simp] def Tree.callees : Tree → List Label
  | .expr e _ | .operand e _ => e.callees
  | .args es _ => Expr.listCallees es
  | .stmt st => st.callees
  | .stmts ss => Stmt.listCallees ss

/-- The calls of a tree are in its code, but for one that its value may be. -/
theorem Canonizes.callees {t : Tree} {n m : Names} {code : List Stmt} (h : Canonizes t n code m) :
    Stmt.listCallees code ++ Expr.listCallees t.vals = t.callees := by
  induction h with
  | const | name | temp | noArgs | label | jump | noStmts => rfl
  | mem _ ih | operand _ ih | unary _ ih | branch _ ih | eval _ ih | set _ ih | seq _ ih =>
    simpa [Stmt.listCallees, Stmt.callees, Expr.listCallees, Expr.callees] using ih
  | call _ ih =>
    simp only [Tree.vals, Tree.callees] at ih
    simp [Expr.listCallees, Expr.callees, ← ih]
  | binary _ _ ih₁ ih₂ | after _ _ ih₁ ih₂ | arg _ _ ih₁ ih₂ | store _ _ ih₁ ih₂
  | next _ _ ih₁ ih₂ =>
    simp only [Tree.vals, Tree.callees, Expr.listCallees, Expr.callees, List.append_nil]
      at ih₁ ih₂
    simp [Stmt.listCallees, Stmt.callees, Expr.listCallees, Expr.callees, ← ih₁, ← ih₂]

end Ir

/-- A branch gets a label and a jump, and neither calls anything. -/
theorem Linearizes.callees {n n' : Names} {ss lin : List Ir.Stmt} (h : Linearizes n ss lin n') :
    Ir.Stmt.listCallees lin = Ir.Stmt.listCallees ss := by
  induction h with
  | nil => rfl
  | branch _ ih => simp [Ir.Stmt.listCallees, Ir.Stmt.callees, ih]
  | other _ _ ih => simp [Ir.Stmt.listCallees, ih]

/-! ## What the machine calls -/

namespace Machine

theorem Call.callee_mem_inExpr :
    ∀ {e : Ir.Expr} {call : Call}, Call.inExpr e = some call → call.callee ∈ e.callees
  | .call l offsets args, _, h => by
    cases h
    simp [Ir.Expr.callees]
  | .mem e, _, h | .unary op e, _, h => Call.callee_mem_inExpr (e := e) h
  | .binary op l r, _, h => by
    rw [Ir.Expr.callees, List.mem_append]
    rcases (Option.orElse_eq_some _ _ _).mp h with h | ⟨-, h⟩
    · exact Or.inl (Call.callee_mem_inExpr h)
    · exact Or.inr (Call.callee_mem_inExpr h)
  | .const _, _, h | .name _, _, h | .temp _, _, h | .after .., _, h => by cases h

theorem Call.callee_mem {st : Ir.Stmt} {call : Call} (h : Call.inStmt st = some call) :
    call.callee ∈ st.callees := by
  cases st with
  | branch c pos neg => exact Call.callee_mem_inExpr (e := c) h
  | eval e => exact Call.callee_mem_inExpr (e := e) h
  | move dst src =>
    rw [Ir.Stmt.callees, List.mem_append]
    rcases (Option.orElse_eq_some _ _ _).mp h with h | ⟨-, h⟩
    · exact Or.inr (Call.callee_mem_inExpr h)
    · exact Or.inl (Call.callee_mem_inExpr h)
  | label | jump | seq => cases h

end Machine

/-! ## What lowering calls -/

namespace Lowering

/-- A label that calls go to: that of a function's frame, or that of allocation or release. -/
def Callable (layout : Layout) (names : Names) (l : Label) : Prop :=
  (∃ (d : DeclId) (frame : Frame), layout.frames[d]? = some frame ∧ frame.label = l) ∨
    ∃ op, names.lookup (runtimeName op) = some l

@[simp] theorem callees_follow (n : Nat) (e : Ir.Expr) : (follow n e).callees = e.callees := by
  induction n generalizing e with
  | zero => rfl
  | succ n ih => rw [follow, ih, Ir.Expr.callees]

@[simp] def Part.callees : Part → List Label
  | .code _ ir | .expr _ ir => ir.callees
  | .arguments _ _ _ vs => Ir.Expr.listCallees vs
  | .block _ xs v => Ir.Stmt.listCallees xs ++ v.callees
  | .stmt _ x => x.callees
  | .stmts _ xs => Ir.Stmt.listCallees xs
  | .functions _ => []

theorem Leaf.callees {scope : Scope} {e : Expr} {ir : Ir.Expr} (h : Leaf scope e ir) :
    ir.callees = [] := by
  cases h <;> simp [wordAt, Ir.Expr.callees]

theorem Wrap.callees {scope : Scope} {e e' : Expr} {v ir : Ir.Expr} (h : Wrap scope e e' v ir) :
    ir.callees = v.callees := by
  cases h <;> simp [wordAt, Ir.Expr.callees]

theorem Join.callees {e e₁ e₂ : Expr} {v₁ v₂ ir : Ir.Expr} (h : Join e e₁ e₂ v₁ v₂ ir) :
    ir.callees = v₁.callees ++ v₂.callees := by
  cases h <;> simp [Ir.Expr.callees]

theorem Lowers.callees {scope : Scope} {p : Part} {t t' : Lowered} {s s' : Session} {names : Names}
    (h : Lowers scope p t s t' s') (hle : s'.names ≤ names) :
    ∀ l ∈ p.callees, Callable scope.layout names l := by
  induction h with
  | entered _ _ ih | block _ ih | scope _ _ _ ih | result _ ih | eval _ ih => exact ih hle
  | leaf h => simp [h.callees]
  | wrap h _ ih =>
    rw [Part.callees, h.callees]
    exact ih hle
  | join h _ h₂ ih₁ ih₂ =>
    rw [Part.callees, h.callees]
    exact List.forall_mem_append.mpr ⟨ih₁ (Names.le_trans h₂.change.names hle), ih₂ hle⟩
  | @runtime _ _ op _ _ _ _ _ _ _ _ _ hv ih =>
    simp only [Part.callees, Ir.Expr.callees, Ir.Expr.listCallees, List.append_nil,
      List.nil_append]
    refine List.forall_mem_append.mpr ⟨ih hle, List.forall_mem_singleton.mpr ?_⟩
    have hnames := Names.le_trans hv.change.names hle
    exact Or.inr ⟨op, Names.lookup_of_le hnames (Names.named_lookup _ _)⟩
  | call htarget _ _ _ ih =>
    simp only [Part.callees, Ir.Expr.callees, Ir.Expr.listCallees, callees_follow,
      List.nil_append]
    exact List.forall_mem_append.mpr
      ⟨ih hle, List.forall_mem_singleton.mpr (Or.inl ⟨_, _, htarget, rfl⟩)⟩
  | noArguments | noResult | noStmts | noFunctions =>
    simp [Ir.Expr.listCallees, Ir.Stmt.listCallees, Ir.Expr.callees]
  | argument _ _ _ h₂ ih₁ ih₂ | stmt _ h₂ ih₁ ih₂ | assign _ h₂ ih₁ ih₂ =>
    exact List.forall_mem_append.mpr ⟨ih₁ (Names.le_trans h₂.change.names hle), ih₂ hle⟩
  | next _ _ h₂ ih₁ ih₂ =>
    rw [Part.callees, Ir.Stmt.listCallees, List.append_assoc]
    exact List.forall_mem_append.mpr ⟨ih₁ (Names.le_trans h₂.change.names hle), ih₂ hle⟩
  | cond _ h₂ h₃ hx ih₁ ih₂ ih₃ =>
    have hle₂ := Names.le_trans h₃.change.names hle
    have htest := ih₁ (Names.le_trans h₂.change.names hle₂)
    simp only [hx, Part.callees, Ir.Stmt.callees, Ir.Stmt.listCallees,
      Ir.Stmt.listCallees_append, List.append_nil, List.forall_mem_append]
    exact ⟨⟨htest, ih₂ hle₂⟩, ih₃ hle⟩
  | loop _ h₂ hx ih₁ ih₂ =>
    simp only [hx, Part.callees, Ir.Stmt.callees, Ir.Stmt.listCallees,
      Ir.Stmt.listCallees_append, List.append_nil, List.nil_append, List.forall_mem_append]
    exact ⟨ih₁ (Names.le_trans h₂.change.names hle), ih₂ hle⟩
  | var | foreign | fn => simp

end Lowering

/-! ## What a program calls -/

/-- The code of a function calls what the lowered code of its body calls. -/
theorem CodeChunk.callees_build {layout : Layout} {code : Lowered} {head : Head} {body : Expr}
    {s s' : Session} {c : CodeChunk} {n names : Names}
    (h : CodeChunk.build layout code head body s = .ok c s')
    (hbody : Lowering.HasBody layout n code head body) (hle : n ≤ names) :
    ∀ l ∈ Ir.Stmt.listCallees c.stmts, Lowering.Callable layout names l := by
  obtain ⟨value, flat, s₁, -, hv, hflat, hstmts, -, -⟩ := CodeChunk.build_ok h
  obtain ⟨frame, ir, t, t', r, r', -, hir, hler, hent⟩ := hbody
  obtain rfl : value = ir := Option.some.inj (hv.symm.trans hent)
  have hcallees : Ir.Stmt.listCallees c.stmts = value.callees := by
    rw [hstmts.callees]
    have hcallees := (Ir.Stmt.canonizes hflat).callees
    simp_all [Ir.Stmt.listCallees, Ir.Stmt.callees, Ir.Expr.listCallees, Ir.Expr.callees]
  rw [hcallees]
  exact (Lowering.expr_lowers hir).callees (Names.le_trans hler hle)

end MmixBackend
