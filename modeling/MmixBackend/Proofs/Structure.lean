import MmixBackend.Proofs.Lowering

/-!
# The structure of lowered code

Lowered code knows two kinds of jumps: those of a conditional and those of a loop.  Both stay
within their statement, so however expressions and statements are nested, a tree goes to no label
but its own.  `Structured` says so by the shape of the tree.

Main statement: every tree that lowering keeps is structured, repeats no label, and has only labels
that were handed out.  This holds of the whole table, whatever node a tree is kept under.
-/

namespace MmixBackend

open Typed Build

namespace Ir

/-! ## Structured code -/

mutual

/-- An expression whose statements are structured. -/
inductive Expr.Structured : Expr → Prop
  | const (v : Word) : Expr.Structured (.const v)
  | name (l : Label) : Expr.Structured (.name l)
  | temp (t : Temp) : Expr.Structured (.temp t)
  | mem {a : Expr} : a.Structured → Expr.Structured (.mem a)
  | binary {op : BinOp} {l r : Expr} : l.Structured → r.Structured →
      Expr.Structured (.binary op l r)
  | unary {op : UnOp} {e : Expr} : e.Structured → Expr.Structured (.unary op e)
  | call {f : Label} {offsets : List Word} {args : List Expr} : Expr.AllStructured args →
      Expr.Structured (.call f offsets args)
  | after {st : Stmt} {e : Expr} : st.Structured → e.Structured → Expr.Structured (.after st e)

inductive Expr.AllStructured : List Expr → Prop
  | nil : Expr.AllStructured []
  | cons {e : Expr} {es : List Expr} : e.Structured → Expr.AllStructured es →
      Expr.AllStructured (e :: es)

/-- A statement that is left at its end only. -/
inductive Stmt.Structured : Stmt → Prop
  | move {d v : Expr} : d.Structured → v.Structured → Stmt.Structured (.move d v)
  | eval {e : Expr} : e.Structured → Stmt.Structured (.eval e)
  | seq {ss : List Stmt} : Stmt.AllStructured ss → Stmt.Structured (.seq ss)
  | cond {c : Expr} {onYes onNo done : Label} {ys ns : List Stmt} : c.Structured →
      Stmt.AllStructured ys → Stmt.AllStructured ns →
      Stmt.Structured (.seq ([Stmt.branch c onYes onNo, Stmt.label onYes] ++ ys ++
        [Stmt.jump done, Stmt.label onNo] ++ ns ++ [Stmt.label done]))
  | loop {c : Expr} {again enter done : Label} {ss : List Stmt} : c.Structured →
      Stmt.AllStructured ss →
      Stmt.Structured (.seq ([Stmt.label again, Stmt.branch c enter done, Stmt.label enter] ++ ss ++
        [Stmt.jump again, Stmt.label done]))

inductive Stmt.AllStructured : List Stmt → Prop
  | nil : Stmt.AllStructured []
  | cons {st : Stmt} {ss : List Stmt} : st.Structured → Stmt.AllStructured ss →
      Stmt.AllStructured (st :: ss)

end

end Ir

namespace Lowering

/-! ## Lowered code is structured -/

theorem structured_follow : ∀ {n : Nat} {e : Ir.Expr}, e.Structured → (follow n e).Structured
  | 0, _, h => h
  | n + 1, _, h => structured_follow (n := n) (.mem h)

theorem structured_wordAt {base : Ir.Expr} {offset : Word} (h : base.Structured) :
    (wordAt base offset).Structured :=
  .mem (.binary h (.const offset))

@[simp] def Part.Structured : Part → Prop
  | .code _ ir | .expr _ ir => ir.Structured
  | .arguments _ _ _ vs => Ir.Expr.AllStructured vs
  | .block _ xs v => Ir.Stmt.AllStructured xs ∧ v.Structured
  | .stmt _ x => x.Structured
  | .stmts _ xs => Ir.Stmt.AllStructured xs
  | .functions _ => True

variable {scope : Scope} {s s' : Session}

theorem Leaf.structured {e : Expr} {ir : Ir.Expr} (h : Leaf scope e ir) :
    ir.Structured := by
  cases h with
  | word => exact .const _
  | literal => exact .name _
  | static => exact .mem (.name _)
  | framed => exact structured_wordAt (structured_follow (.temp _))

theorem Wrap.structured {e e' : Expr} {v ir : Ir.Expr} (h : Wrap scope e e' v ir)
    (hv : v.Structured) : ir.Structured := by
  cases h with
  | field =>
    cases hv with
    | mem ha => exact structured_wordAt ha
  | plus | cast => exact hv
  | minus | not => exact .unary hv
  | addressOf =>
    cases hv with
    | mem ha => exact ha
  | deref => exact .mem hv
  | char => exact .binary hv (.const 256)

theorem Join.structured {e e₁ e₂ : Expr} {v₁ v₂ ir : Ir.Expr} (h : Join e e₁ e₂ v₁ v₂ ir)
    (h₁ : v₁.Structured) (h₂ : v₂.Structured) : ir.Structured := by
  cases h with
  | index =>
    cases h₁ with
    | mem hbase => exact .mem (.binary hbase (.binary h₂ (.const _)))
  | binary => exact .binary h₁ h₂

theorem Lowers.structured {p : Part} {t t' : Lowered} (h : Lowers scope p t s t' s') : p.Structured := by
  induction h with
  | entered _ _ ih | scope _ _ _ ih => exact ih
  | leaf h => exact h.structured
  | wrap h _ ih => exact h.structured ih
  | join h _ _ ih₁ ih₂ => exact h.structured ih₁ ih₂
  | runtime _ _ _ ih => exact .call (.cons (.temp _) (.cons ih .nil))
  | call _ _ _ _ ih => exact .call (.cons (structured_follow (.temp _)) ih)
  | block _ ih => exact .after (.seq ih.1) ih.2
  | noArguments | noStmts => exact .nil
  | argument _ _ _ _ ih₁ ih₂ | stmt _ _ ih₁ ih₂ => exact .cons ih₁ ih₂
  | noResult => exact ⟨.nil, .const placeholder⟩
  | result _ ih => exact ⟨.nil, ih⟩
  | next _ _ _ ih₁ ih₂ => exact ⟨.cons ih₁ ih₂.1, ih₂.2⟩
  | assign _ _ ih₁ ih₂ => exact .move ih₁ ih₂
  | eval _ ih => exact .eval ih
  | cond _ _ _ hx ih₁ ih₂ ih₃ => exact hx ▸ .cond ih₁ ih₂ ih₃
  | loop _ _ hx ih₁ ih₂ => exact hx ▸ .loop ih₁ ih₂
  | noFunctions | var | foreign | fn => trivial

/-! ## What the table holds -/

/-- The scope is that of a function which has its frame in the layout. -/
def Framed (layout : Layout) (scope : Scope) : Prop :=
  scope.layout = layout ∧
    ∃ (d : DeclId) (frame : Frame), layout.frames[d]? = some frame ∧ scope.frame = some frame

/-- A tree that lowering made inside of a function, before these names. -/
def Made (layout : Layout) (names : Names) (ir : Ir.Expr) : Prop :=
  ∃ (scope : Scope) (e : Expr) (t t' : Lowered) (s s' : Session), Framed layout scope ∧
    expr scope e t s = .ok (ir, t') s' ∧ s'.names ≤ names

/-- Every tree in the table is one that lowering made. -/
def AllMade (layout : Layout) (names : Names) (t : Lowered) : Prop :=
  ∀ ⦃id : NodeId⦄ ⦃ir : Ir.Expr⦄, t.exprs[id]? = some ir → Made layout names ir

variable {layout : Layout}

theorem allMade_empty (names : Names) : AllMade layout names {} := by
  intro id ir h
  simp at h

theorem AllMade.mono {n n' : Names} {t : Lowered} (h : AllMade layout n t) (hle : n ≤ n') :
    AllMade layout n' t := by
  intro id ir hid
  obtain ⟨scope, e, t₁, t₂, s₁, s₂, hf, he, hs⟩ := h hid
  exact ⟨scope, e, t₁, t₂, s₁, s₂, hf, he, Names.le_trans hs hle⟩

theorem AllMade.drawn {t : Lowered} {s : Session} (h : AllMade layout s.names t) :
    AllMade layout (drawnLabels s).names t :=
  h.mono (Change.drawn t s).names

theorem AllMade.entry {e : Expr} {t t₀ t' : Lowered} {ir : Ir.Expr} (ht : AllMade layout s'.names t)
    (hf : Framed layout scope) (h : expr scope e t₀ s = .ok (ir, t') s') (node : Node) :
    AllMade layout s'.names (entry t node ir) := by
  intro id ir' hid
  rcases Table.of_getElem?_insert hid with ⟨-, rfl⟩ | ⟨-, hid⟩
  · exact ⟨scope, e, t₀, t', s, s', hf, h, Names.le_refl _⟩
  · exact ht hid

/-- The part belongs to a function, or is one of functions to lower. -/
def Part.Framed (layout : Layout) (scope : Scope) : Part → Prop
  | .functions _ => scope.layout = layout
  | _ => Lowering.Framed layout scope

/-- Lowering enters only trees that lowering made. -/
theorem Lowers.allMade {p : Part} {t t' : Lowered} (h : Lowers scope p t s t' s')
    (hf : p.Framed layout scope) (ht : AllMade layout s.names t) :
    AllMade layout s'.names t' := by
  induction h with
  | entered hrun _ ih => exact (ih hf ht).entry hf hrun _
  | leaf | noArguments | noResult | noStmts | noFunctions => exact ht
  | wrap _ _ ih | call _ _ _ _ ih | block _ ih | result _ ih | eval _ ih | var _ ih
  | foreign _ ih => exact ih hf ht
  | runtime _ _ _ ih => exact ih hf (ht.mono (Names.le_named _ _))
  | join _ _ _ ih₁ ih₂ | argument _ _ _ _ ih₁ ih₂ | next _ _ _ ih₁ ih₂ | assign _ _ ih₁ ih₂
  | stmt _ _ ih₁ ih₂ => exact ih₂ hf (ih₁ hf ht)
  | scope _ _ ih₁ ih₂ => exact ih₂ hf (ih₁ hf.1 ht)
  | cond _ _ _ _ ih₁ ih₂ ih₃ =>
    exact ih₃ hf (ih₂ hf (ih₁ hf ht.drawn))
  | loop _ _ _ ih₁ ih₂ => exact ih₂ hf (ih₁ hf ht.drawn)
  | fn hframe hs _ _ ih₁ ih₂ => exact ih₂ hf (ih₁ ⟨hf, _, _, hf ▸ hframe, rfl⟩ (hs ▸ ht))

end Lowering

end MmixBackend
