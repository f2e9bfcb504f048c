import MmixBackend.Chunk
import MmixBackend.Proofs.Pass

/-!
# What bringing code into canonical form does

Canonization accepts a tree exactly if its moves go into temporaries and memory.  For each construct
of the intermediate code, the parts that a successful canonization made and the sessions it went
through; then all of it as one relation between a tree, its code and the names, on which what
canonization keeps is shown by induction: names only grow, and what directs control in a tree comes
out in the order in which the tree is evaluated, while values have nothing of it.  So the labels of
a tree come out in the order in which the tree has them.
-/

namespace MmixBackend

abbrev Session.drawn (s : Session) : Session := { s with names := s.names.newTemp.2 }

/-! ## Passes that accept -/

namespace Build

/-- The pass succeeds exactly if `b`, and else fails in a way. -/
def Accepts {α : Type} (x : Build α) (b : Bool) (E : Failure → Prop) : Prop :=
  ∀ s, match x s with
    | .ok _ _ => b = true
    | .error e _ => b = false ∧ E e

section Accepts

variable {α β : Type} {x : Build α} {f : α → Build β} {b b' : Bool} {E : Failure → Prop}
  {s s' : Session}

theorem Accepts.ok (h : Accepts x b E) {a : α} (hx : x s = .ok a s') : b = true := by
  have hs := h s
  rwa [hx] at hs

theorem Accepts.error (h : Accepts x b E) {e : Failure} (hx : x s = .error e s') :
    b = false ∧ E e := by
  have hs := h s
  rwa [hx] at hs

theorem Accepts.exists_ok (h : Accepts x b E) (hb : b = true) (s : Session) :
    ∃ a s', x s = .ok a s' := by
  cases hx : x s with
  | ok a s' => exact ⟨a, s', rfl⟩
  | error e s' => exact absurd (h.error hx).1 (by simp [hb])

theorem accepts_pure (a : α) : Accepts (pure a) true E := fun _ => rfl

theorem Accepts.bind (hx : Accepts x b E) (hf : ∀ a, Accepts (f a) b' E) :
    Accepts (x >>= f) (b && b') E := by
  intro s
  cases hs : x s with
  | ok a t =>
    rw [bind_of_ok hs, hx.ok hs, Bool.true_and]
    exact hf a t
  | error e t =>
    obtain ⟨hb, he⟩ := hx.error hs
    rw [bind_of_error hs, hb, Bool.false_and]
    exact ⟨rfl, he⟩

theorem Accepts.then (hx : Accepts x b E) (hf : ∀ a, Accepts (f a) true E) :
    Accepts (x >>= f) b E :=
  Bool.and_true b ▸ hx.bind hf

theorem accepts_drawn {g : Temp → Build α} (hg : ∀ t, Accepts (g t) b E) :
    Accepts (newTemp >>= g) b E := fun s => hg _ s.drawn

end Accepts

end Build

namespace Ir

open Build

/-! ## The parts of a canonization -/

variable {l : Label} {e c : Expr} {st : Stmt} {ss : List Stmt}

section Parts

variable {loc : Location} {s s' : Session} {pre code : List Stmt} {val : Expr}

theorem Expr.canonize_const {v : Word}
    (h : (Expr.const v).canonize loc s = .ok (pre, val) s') :
    pre = [] ∧ val = .const v ∧ s' = s := by
  simp only [Expr.canonize, pure_ok, Prod.mk.injEq] at h
  exact ⟨h.1.1, h.1.2, h.2⟩

theorem Expr.canonize_name (h : (Expr.name l).canonize loc s = .ok (pre, val) s') :
    pre = [] ∧ val = .name l ∧ s' = s := by
  simp only [Expr.canonize, pure_ok, Prod.mk.injEq] at h
  exact ⟨h.1.1, h.1.2, h.2⟩

theorem Expr.canonize_temp {t : Temp}
    (h : (Expr.temp t).canonize loc s = .ok (pre, val) s') :
    pre = [] ∧ val = .temp t ∧ s' = s := by
  simp only [Expr.canonize, pure_ok, Prod.mk.injEq] at h
  exact ⟨h.1.1, h.1.2, h.2⟩

theorem Expr.canonize_mem {addr : Expr}
    (h : (Expr.mem addr).canonize loc s = .ok (pre, val) s') :
    ∃ preA a s₁, addr.canonize loc s.drawn = .ok (preA, a) s₁ ∧
      pre = preA ++ [.move (.temp ⟨s.names.temps⟩) (.mem a)] ∧
      val = .temp ⟨s.names.temps⟩ ∧ s'.names = s₁.names := by
  simp only [Expr.canonize, bind_ok, pure_ok, newTemp_ok, note_ok, Prod.exists,
    Prod.mk.injEq] at h
  obtain ⟨t, _, ⟨rfl, rfl⟩, preA, a, s₁, ha, _, _, rfl, ⟨rfl, rfl⟩, rfl⟩ := h
  exact ⟨preA, a, s₁, ha, rfl, rfl, rfl⟩

theorem Expr.canonize_binary {op : BinOp} {lhs rhs : Expr}
    (h : (Expr.binary op lhs rhs).canonize loc s = .ok (pre, val) s') :
    ∃ preL l s₁ preR r s₂, lhs.canonize loc s.drawn = .ok (preL, l) s₁ ∧
      rhs.canonize loc s₁.drawn = .ok (preR, r) s₂ ∧
      pre = preL ++ .move (.temp ⟨s.names.temps⟩) l ::
        (preR ++ [.move (.temp ⟨s₁.names.temps⟩) r]) ∧
      val = .binary op (.temp ⟨s.names.temps⟩) (.temp ⟨s₁.names.temps⟩) ∧
      s'.names = s₂.names := by
  simp only [Expr.canonize, bind_ok, pure_ok, newTemp_ok, note_ok, Prod.exists,
    Prod.mk.injEq] at h
  obtain ⟨_, _, ⟨rfl, rfl⟩, preL, l, s₁, hl, _, _, ⟨rfl, rfl⟩, preR, r, s₂, hr, _, _, rfl,
    ⟨rfl, rfl⟩, rfl⟩ := h
  exact ⟨preL, l, s₁, preR, r, s₂, hl, hr, rfl, rfl, rfl⟩

theorem Expr.canonize_unary {op : UnOp} (h : (Expr.unary op e).canonize loc s = .ok (pre, val) s') :
    ∃ v, e.canonize loc s = .ok (pre, v) s' ∧ val = .unary op v := by
  simp only [Expr.canonize, bind_ok, pure_ok, Prod.exists, Prod.mk.injEq] at h
  obtain ⟨_, v, _, he, ⟨rfl, rfl⟩, rfl⟩ := h
  exact ⟨v, he, rfl⟩

theorem Expr.canonize_call {f : Label} {offsets : List Word} {args : List Expr}
    (h : (Expr.call f offsets args).canonize loc s = .ok (pre, val) s') :
    ∃ ts, Expr.canonizeArgs loc args s = .ok (pre, ts) s' ∧ val = .call f offsets ts := by
  simp only [Expr.canonize, bind_ok, pure_ok, Prod.exists, Prod.mk.injEq] at h
  obtain ⟨_, ts, _, hargs, ⟨rfl, rfl⟩, rfl⟩ := h
  exact ⟨ts, hargs, rfl⟩

theorem Expr.canonize_after (h : (Expr.after st e).canonize loc s = .ok (pre, val) s') :
    ∃ code s₁ preE, st.canonize loc s = .ok code s₁ ∧
      e.canonize loc s₁ = .ok (preE, val) s' ∧ pre = code ++ preE := by
  simp only [Expr.canonize, bind_ok, pure_ok, Prod.exists, Prod.mk.injEq] at h
  obtain ⟨code, s₁, hc, preE, _, _, he, ⟨rfl, rfl⟩, rfl⟩ := h
  exact ⟨code, s₁, preE, hc, he, rfl⟩

theorem Expr.canonizeArgs_nil {ts : List Expr}
    (h : Expr.canonizeArgs loc [] s = .ok (pre, ts) s') : pre = [] ∧ ts = [] ∧ s' = s := by
  simp only [Expr.canonizeArgs, pure_ok, Prod.mk.injEq] at h
  exact ⟨h.1.1, h.1.2, h.2⟩

theorem Expr.canonizeArgs_cons {a : Expr} {as ts : List Expr}
    (h : Expr.canonizeArgs loc (a :: as) s = .ok (pre, ts) s') :
    ∃ preA v s₁ rest vs, a.canonize loc s.drawn = .ok (preA, v) s₁ ∧
      Expr.canonizeArgs loc as s₁ = .ok (rest, vs) s' ∧
      pre = preA ++ .move (.temp ⟨s.names.temps⟩) v :: rest ∧
      ts = .temp ⟨s.names.temps⟩ :: vs := by
  simp only [Expr.canonizeArgs, bind_ok, pure_ok, newTemp_ok, Prod.exists, Prod.mk.injEq] at h
  obtain ⟨_, _, ⟨rfl, rfl⟩, preA, v, s₁, ha, rest, vs, _, has, ⟨rfl, rfl⟩, rfl⟩ := h
  exact ⟨preA, v, s₁, rest, vs, ha, has, rfl, rfl⟩

theorem Stmt.canonize_label (h : (Stmt.label l).canonize loc s = .ok code s') :
    code = [.label l] ∧ s' = s := by
  simpa only [Stmt.canonize, pure_ok] using h

theorem Stmt.canonize_jump (h : (Stmt.jump l).canonize loc s = .ok code s') :
    code = [.jump l] ∧ s' = s := by
  simpa only [Stmt.canonize, pure_ok] using h

theorem Stmt.canonize_branch {pos neg : Label}
    (h : (Stmt.branch c pos neg).canonize loc s = .ok code s') :
    ∃ pre v, c.canonize loc s = .ok (pre, v) s' ∧ code = pre ++ [.branch v pos neg] := by
  simp only [Stmt.canonize, bind_ok, pure_ok, Prod.exists] at h
  obtain ⟨pre, v, _, hc, rfl, rfl⟩ := h
  exact ⟨pre, v, hc, rfl⟩

theorem Stmt.canonize_eval (h : (Stmt.eval e).canonize loc s = .ok code s') :
    ∃ pre v, e.canonize loc s = .ok (pre, v) s' ∧ code = pre ++ [.eval v] := by
  simp only [Stmt.canonize, bind_ok, pure_ok, Prod.exists] at h
  obtain ⟨pre, v, _, he, rfl, rfl⟩ := h
  exact ⟨pre, v, he, rfl⟩

theorem Stmt.canonize_store {addr src : Expr}
    (h : (Stmt.move (.mem addr) src).canonize loc s = .ok code s') :
    ∃ preA a s₁ preV v s₂, addr.canonize loc s.drawn = .ok (preA, a) s₁ ∧
      src.canonize loc s₁.drawn = .ok (preV, v) s₂ ∧
      code = preA ++ .move (.temp ⟨s.names.temps⟩) a :: (preV ++
        [.move (.temp ⟨s₁.names.temps⟩) v,
          .move (.mem (.temp ⟨s.names.temps⟩)) (.temp ⟨s₁.names.temps⟩)]) ∧
      s'.names = s₂.names := by
  simp only [Stmt.canonize, bind_ok, pure_ok, newTemp_ok, note_ok, Prod.exists] at h
  obtain ⟨_, _, ⟨rfl, rfl⟩, preA, a, s₁, ha, _, _, ⟨rfl, rfl⟩, preV, v, s₂, hv, _, _, rfl,
    rfl, rfl⟩ := h
  exact ⟨preA, a, s₁, preV, v, s₂, ha, hv, rfl, rfl⟩

theorem Stmt.canonize_set {dst : Temp} {src : Expr}
    (h : (Stmt.move (.temp dst) src).canonize loc s = .ok code s') :
    ∃ pre v, src.canonize loc s.drawn = .ok (pre, v) s' ∧
      code = pre ++ [.move (.temp ⟨s.names.temps⟩) v,
        .move (.temp dst) (.temp ⟨s.names.temps⟩)] := by
  simp only [Stmt.canonize, bind_ok, pure_ok, newTemp_ok, Prod.exists] at h
  obtain ⟨_, _, ⟨rfl, rfl⟩, pre, v, _, hv, rfl, rfl⟩ := h
  exact ⟨pre, v, hv, rfl⟩

/-- Only temporaries and memory are moved into. -/
theorem Stmt.canonize_move {dst src : Expr}
    (h : (Stmt.move dst src).canonize loc s = .ok code s') :
    (∃ addr, dst = .mem addr) ∨ ∃ t, dst = .temp t := by
  cases dst with
  | mem addr => exact Or.inl ⟨addr, rfl⟩
  | temp t => exact Or.inr ⟨t, rfl⟩
  | const | name | binary | unary | call | after =>
    simp only [Stmt.canonize, defect_ok] at h

theorem Stmt.canonize_seq (h : (Stmt.seq ss).canonize loc s = .ok code s') :
    Stmt.canonizeAll loc ss s = .ok code s' := by
  simpa only [Stmt.canonize] using h

theorem Stmt.canonizeAll_nil (h : Stmt.canonizeAll loc [] s = .ok code s') :
    code = [] ∧ s' = s := by
  simpa only [Stmt.canonizeAll, pure_ok] using h

theorem Stmt.canonizeAll_cons (h : Stmt.canonizeAll loc (st :: ss) s = .ok code s') :
    ∃ code₁ s₁ code₂, st.canonize loc s = .ok code₁ s₁ ∧
      Stmt.canonizeAll loc ss s₁ = .ok code₂ s' ∧ code = code₁ ++ code₂ := by
  simp only [Stmt.canonizeAll, bind_ok, pure_ok] at h
  obtain ⟨code₁, s₁, h₁, code₂, _, h₂, rfl, rfl⟩ := h
  exact ⟨code₁, s₁, code₂, h₁, h₂, rfl⟩

theorem Stmt.canonizeAll_append {ts : List Stmt} :
    ∀ {s s' : Session} {code : List Stmt},
      Stmt.canonizeAll loc (ss ++ ts) s = .ok code s' →
      ∃ code₁ s₁ code₂, Stmt.canonizeAll loc ss s = .ok code₁ s₁ ∧
        Stmt.canonizeAll loc ts s₁ = .ok code₂ s' ∧ code = code₁ ++ code₂ := by
  induction ss with
  | nil =>
    intro s s' code h
    exact ⟨[], s, code, by rw [Stmt.canonizeAll, pure_ok]; exact ⟨rfl, rfl⟩, h, rfl⟩
  | cons st ss ih =>
    intro s s' code h
    obtain ⟨code₁, s₁, code₂, h₁, h₂, rfl⟩ := Stmt.canonizeAll_cons h
    obtain ⟨code₃, s₂, code₄, h₃, h₄, rfl⟩ := ih h₂
    refine ⟨code₁ ++ code₃, s₂, code₄, ?_, h₄, by rw [List.append_assoc]⟩
    simp only [Stmt.canonizeAll, bind_ok, pure_ok]
    exact ⟨code₁, s₁, h₁, code₃, s₂, h₃, rfl, rfl⟩

theorem Stmt.canonizeAll_singleton
    (h : Stmt.canonizeAll loc [st] s = .ok code s') :
    st.canonize loc s = .ok code s' := by
  obtain ⟨code₁, s₁, code₂, h₁, h₂, rfl⟩ := Stmt.canonizeAll_cons h
  obtain ⟨rfl, rfl⟩ := Stmt.canonizeAll_nil h₂
  rw [List.append_nil]
  exact h₁

theorem Stmt.canonizeAll_label_cons
    (h : Stmt.canonizeAll loc (.label l :: ss) s = .ok code s') :
    ∃ rest, Stmt.canonizeAll loc ss s = .ok rest s' ∧ code = .label l :: rest := by
  obtain ⟨_, _, rest, h₁, h₂, rfl⟩ := Stmt.canonizeAll_cons h
  obtain ⟨rfl, rfl⟩ := Stmt.canonize_label h₁
  exact ⟨rest, h₂, rfl⟩

theorem Stmt.canonizeAll_jump_cons
    (h : Stmt.canonizeAll loc (.jump l :: ss) s = .ok code s') :
    ∃ rest, Stmt.canonizeAll loc ss s = .ok rest s' ∧ code = .jump l :: rest := by
  obtain ⟨_, _, rest, h₁, h₂, rfl⟩ := Stmt.canonizeAll_cons h
  obtain ⟨rfl, rfl⟩ := Stmt.canonize_jump h₁
  exact ⟨rest, h₂, rfl⟩

/-- A branch in front of statements stands after the code of its condition. -/
theorem Stmt.canonizeAll_branch_cons {pos neg : Label}
    (h : Stmt.canonizeAll loc (.branch c pos neg :: ss) s = .ok code s') :
    ∃ pre v s₁ rest, c.canonize loc s = .ok (pre, v) s₁ ∧
      Stmt.canonizeAll loc ss s₁ = .ok rest s' ∧ code = pre ++ .branch v pos neg :: rest := by
  obtain ⟨_, s₁, rest, h₁, h₂, rfl⟩ := Stmt.canonizeAll_cons h
  obtain ⟨pre, v, hv, rfl⟩ := Stmt.canonize_branch h₁
  exact ⟨pre, v, s₁, rest, hv, h₂, by rw [List.append_assoc, List.singleton_append]⟩

/-- The code of a conditional: the condition, the branch, then the two cases. -/
theorem Stmt.canonizeAll_cond {onYes onNo done : Label} {ys ns : List Stmt}
    (h : Stmt.canonizeAll loc ([Stmt.branch c onYes onNo, Stmt.label onYes] ++ ys ++
      [Stmt.jump done, Stmt.label onNo] ++ ns ++ [Stmt.label done]) s = .ok code s') :
    ∃ pre v s₁ yes s₂ no, c.canonize loc s = .ok (pre, v) s₁ ∧
      Stmt.canonizeAll loc ys s₁ = .ok yes s₂ ∧ Stmt.canonizeAll loc ns s₂ = .ok no s' ∧
      code = pre ++ Stmt.branch v onYes onNo :: Stmt.label onYes :: (yes ++
        Stmt.jump done :: Stmt.label onNo :: (no ++ [Stmt.label done])) := by
  simp only [List.append_assoc, List.cons_append, List.nil_append] at h
  obtain ⟨pre, v, s₁, _, hv, hc₁, rfl⟩ := Stmt.canonizeAll_branch_cons h
  obtain ⟨_, hc₂, rfl⟩ := Stmt.canonizeAll_label_cons hc₁
  obtain ⟨yes, s₂, _, hyes, hc₃, rfl⟩ := Stmt.canonizeAll_append hc₂
  obtain ⟨_, hc₄, rfl⟩ := Stmt.canonizeAll_jump_cons hc₃
  obtain ⟨_, hc₅, rfl⟩ := Stmt.canonizeAll_label_cons hc₄
  obtain ⟨no, s₃, _, hno, hc₆, rfl⟩ := Stmt.canonizeAll_append hc₅
  obtain ⟨rfl, rfl⟩ := Stmt.canonize_label (Stmt.canonizeAll_singleton hc₆)
  exact ⟨pre, v, s₁, yes, s₂, no, hv, hyes, hno, rfl⟩

/-- The code of a loop: its label, the condition, the branch, then the body. -/
theorem Stmt.canonizeAll_loop {again enter done : Label}
    (h : Stmt.canonizeAll loc ([Stmt.label again, Stmt.branch c enter done, Stmt.label enter] ++
      ss ++ [Stmt.jump again, Stmt.label done]) s = .ok code s') :
    ∃ pre v s₁ body, c.canonize loc s = .ok (pre, v) s₁ ∧
      Stmt.canonizeAll loc ss s₁ = .ok body s' ∧
      code = Stmt.label again :: (pre ++ Stmt.branch v enter done :: Stmt.label enter :: (body ++
        [Stmt.jump again, Stmt.label done])) := by
  simp only [List.cons_append, List.nil_append] at h
  obtain ⟨_, hc₁, rfl⟩ := Stmt.canonizeAll_label_cons h
  obtain ⟨pre, v, s₁, _, hv, hc₂, rfl⟩ := Stmt.canonizeAll_branch_cons hc₁
  obtain ⟨_, hc₃, rfl⟩ := Stmt.canonizeAll_label_cons hc₂
  obtain ⟨body, s₂, _, hbody, hc₄, rfl⟩ := Stmt.canonizeAll_append hc₃
  obtain ⟨_, hc₅, rfl⟩ := Stmt.canonizeAll_jump_cons hc₄
  obtain ⟨rfl, rfl⟩ := Stmt.canonize_label (Stmt.canonizeAll_singleton hc₅)
  exact ⟨pre, v, s₁, body, hv, hbody, rfl⟩

end Parts

/-! ## What has canonical code -/

/-- Something that a move can go into. -/
def Expr.isPlace : Expr → Bool
  | .mem _ | .temp _ => true
  | _ => false

mutual

/-- Every move in an expression goes into a temporary or into memory. -/
def Expr.isMovable : Expr → Bool
  | .const _ | .name _ | .temp _ => true
  | .mem e | .unary _ e => e.isMovable
  | .binary _ l r => l.isMovable && r.isMovable
  | .call _ _ args => Expr.allMovable args
  | .after s e => s.isMovable && e.isMovable

def Expr.allMovable : List Expr → Bool
  | [] => true
  | e :: es => e.isMovable && Expr.allMovable es

/-- Every move in a statement goes into a temporary or into memory. -/
def Stmt.isMovable : Stmt → Bool
  | .label _ | .jump _ => true
  | .branch e _ _ | .eval e => e.isMovable
  | .move dst src => dst.isPlace && dst.isMovable && src.isMovable
  | .seq ss => Stmt.allMovable ss

def Stmt.allMovable : List Stmt → Bool
  | [] => true
  | s :: ss => s.isMovable && Stmt.allMovable ss

end

/-- A move at a place in the source goes into something that nothing can be moved into. -/
def Misplaced (loc : Location) (e : Failure) : Prop :=
  ∃ dst : Expr, dst.isPlace = false ∧ e = .internal loc (.moveInto dst)

section Accepts

variable (loc : Location)

mutual

/-- An expression has a canonical form exactly if its moves go into temporaries and memory. -/
theorem Expr.accepts_canonize : ∀ e : Expr, Accepts (e.canonize loc) e.isMovable (Misplaced loc)
  | .const _ | .name _ | .temp _ => by
    rw [Expr.canonize]
    exact accepts_pure _
  | .mem e => by
    rw [Expr.canonize]
    exact accepts_drawn fun _ => (Expr.accepts_canonize e).then fun _ _ => rfl
  | .unary _ e => by
    rw [Expr.canonize]
    exact (Expr.accepts_canonize e).then fun _ _ => rfl
  | .binary _ l r => by
    rw [Expr.canonize]
    exact accepts_drawn fun _ => (Expr.accepts_canonize l).bind fun _ =>
      accepts_drawn fun _ => (Expr.accepts_canonize r).then fun _ _ => rfl
  | .call _ _ args => by
    rw [Expr.canonize]
    exact (Expr.accepts_canonizeArgs args).then fun _ _ => rfl
  | .after s e => by
    rw [Expr.canonize]
    exact (Stmt.accepts_canonize s).bind fun _ => (Expr.accepts_canonize e).then fun _ _ => rfl

theorem Expr.accepts_canonizeArgs :
    ∀ args : List Expr, Accepts (Expr.canonizeArgs loc args) (Expr.allMovable args) (Misplaced loc)
  | [] => by
    rw [Expr.canonizeArgs]
    exact accepts_pure _
  | a :: as => by
    rw [Expr.canonizeArgs]
    exact accepts_drawn fun _ => (Expr.accepts_canonize a).bind fun _ =>
      (Expr.accepts_canonizeArgs as).then fun _ _ => rfl

theorem Stmt.accepts_canonize : ∀ s : Stmt, Accepts (s.canonize loc) s.isMovable (Misplaced loc)
  | .label _ | .jump _ => by
    rw [Stmt.canonize]
    exact accepts_pure _
  | .branch e _ _ | .eval e => by
    rw [Stmt.canonize]
    exact (Expr.accepts_canonize e).then fun _ _ => rfl
  | .seq ss => by
    rw [Stmt.canonize]
    exact Stmt.accepts_canonizeAll ss
  | .move (.mem addr) src => by
    rw [Stmt.canonize]
    exact accepts_drawn fun _ => (Expr.accepts_canonize addr).bind fun _ =>
      accepts_drawn fun _ => (Expr.accepts_canonize src).then fun _ _ => rfl
  | .move (.temp _) src => by
    rw [Stmt.canonize]
    exact accepts_drawn fun _ => (Expr.accepts_canonize src).then fun _ _ => rfl
  | .move (.const _) _ | .move (.name _) _ | .move (.binary ..) _ | .move (.unary ..) _
  | .move (.call ..) _ | .move (.after ..) _ => by
    rw [Stmt.canonize]
    · exact fun _ => ⟨rfl, _, rfl, rfl⟩
    · simp
    · simp

theorem Stmt.accepts_canonizeAll :
    ∀ ss : List Stmt, Accepts (Stmt.canonizeAll loc ss) (Stmt.allMovable ss) (Misplaced loc)
  | [] => by
    rw [Stmt.canonizeAll]
    exact accepts_pure _
  | s :: ss => by
    rw [Stmt.canonizeAll]
    exact (Stmt.accepts_canonize s).bind fun _ =>
      (Stmt.accepts_canonizeAll ss).then fun _ _ => rfl

end

end Accepts

/-! ## Canonization as a relation -/

/-- What is brought into canonical form: an expression with the value that is left of it, one whose
value goes into a temporary, arguments with what is left of them, and statements. -/
inductive Tree where
  | expr (e val : Expr)
  | operand (e : Expr) (t : Temp)
  | args (es vals : List Expr)
  | stmt (st : Stmt)
  | stmts (ss : List Stmt)

/-- The canonical code of a tree, with the names before and after it was made.  The temporary of an
operand is drawn before its code. -/
inductive Canonizes : Tree → Names → List Stmt → Names → Prop
  | const {n : Names} {v : Word} : Canonizes (.expr (.const v) (.const v)) n [] n
  | name {n : Names} {l : Label} : Canonizes (.expr (.name l) (.name l)) n [] n
  | temp {n : Names} {t : Temp} : Canonizes (.expr (.temp t) (.temp t)) n [] n
  | mem {n m : Names} {e v : Expr} {pre : List Stmt} :
    Canonizes (.expr e v) n.newTemp.2 pre m →
    Canonizes (.expr (.mem e) (.temp ⟨n.temps⟩)) n (pre ++ [.move (.temp ⟨n.temps⟩) (.mem v)]) m
  | operand {n m : Names} {e v : Expr} {pre : List Stmt} :
    Canonizes (.expr e v) n.newTemp.2 pre m →
    Canonizes (.operand e ⟨n.temps⟩) n (pre ++ [.move (.temp ⟨n.temps⟩) v]) m
  | binary {n k m : Names} {op : BinOp} {l r : Expr} {t u : Temp} {code code' : List Stmt} :
    Canonizes (.operand l t) n code k → Canonizes (.operand r u) k code' m →
    Canonizes (.expr (.binary op l r) (.binary op (.temp t) (.temp u))) n (code ++ code') m
  | unary {n m : Names} {op : UnOp} {e v : Expr} {pre : List Stmt} :
    Canonizes (.expr e v) n pre m → Canonizes (.expr (.unary op e) (.unary op v)) n pre m
  | call {n m : Names} {f : Label} {offsets : List Word} {es vs : List Expr} {pre : List Stmt} :
    Canonizes (.args es vs) n pre m →
    Canonizes (.expr (.call f offsets es) (.call f offsets vs)) n pre m
  | after {n k m : Names} {st : Stmt} {e v : Expr} {code pre : List Stmt} :
    Canonizes (.stmt st) n code k → Canonizes (.expr e v) k pre m →
    Canonizes (.expr (.after st e) v) n (code ++ pre) m
  | noArgs {n : Names} : Canonizes (.args [] []) n [] n
  | arg {n k m : Names} {e : Expr} {t : Temp} {es vs : List Expr} {code code' : List Stmt} :
    Canonizes (.operand e t) n code k → Canonizes (.args es vs) k code' m →
    Canonizes (.args (e :: es) (.temp t :: vs)) n (code ++ code') m
  | label {n : Names} {l : Label} : Canonizes (.stmt (.label l)) n [.label l] n
  | jump {n : Names} {l : Label} : Canonizes (.stmt (.jump l)) n [.jump l] n
  | branch {n m : Names} {c v : Expr} {pos neg : Label} {pre : List Stmt} :
    Canonizes (.expr c v) n pre m →
    Canonizes (.stmt (.branch c pos neg)) n (pre ++ [.branch v pos neg]) m
  | eval {n m : Names} {e v : Expr} {pre : List Stmt} :
    Canonizes (.expr e v) n pre m → Canonizes (.stmt (.eval e)) n (pre ++ [.eval v]) m
  | store {n k m : Names} {addr src : Expr} {a v : Temp} {code code' : List Stmt} :
    Canonizes (.operand addr a) n code k → Canonizes (.operand src v) k code' m →
    Canonizes (.stmt (.move (.mem addr) src)) n
      (code ++ code' ++ [.move (.mem (.temp a)) (.temp v)]) m
  | set {n m : Names} {src : Expr} {dst t : Temp} {code : List Stmt} :
    Canonizes (.operand src t) n code m →
    Canonizes (.stmt (.move (.temp dst) src)) n (code ++ [.move (.temp dst) (.temp t)]) m
  | seq {n m : Names} {ss code : List Stmt} :
    Canonizes (.stmts ss) n code m → Canonizes (.stmt (.seq ss)) n code m
  | noStmts {n : Names} : Canonizes (.stmts []) n [] n
  | next {n k m : Names} {st : Stmt} {ss code code' : List Stmt} :
    Canonizes (.stmt st) n code k → Canonizes (.stmts ss) k code' m →
    Canonizes (.stmts (st :: ss)) n (code ++ code') m

section Canonizes

variable {loc : Location}

mutual

theorem Stmt.canonizes :
    ∀ {st : Stmt} {s s' : Session} {code : List Stmt},
      st.canonize loc s = .ok code s' → Canonizes (.stmt st) s.names code s'.names
  | .seq _, _, _, _, h => .seq (Stmt.allCanonizes (Stmt.canonize_seq h))
  | .label _, _, _, _, h => by
    obtain ⟨rfl, rfl⟩ := Stmt.canonize_label h
    exact .label
  | .jump _, _, _, _, h => by
    obtain ⟨rfl, rfl⟩ := Stmt.canonize_jump h
    exact .jump
  | .branch .., _, _, _, h => by
    obtain ⟨_, _, hc, rfl⟩ := Stmt.canonize_branch h
    exact .branch (Expr.canonizes hc)
  | .eval _, _, _, _, h => by
    obtain ⟨_, _, he, rfl⟩ := Stmt.canonize_eval h
    exact .eval (Expr.canonizes he)
  | .move (.mem _) _, _, _, _, h => by
    obtain ⟨_, _, _, _, _, _, ha, hv, rfl, hs⟩ := Stmt.canonize_store h
    rw [hs]
    simpa using Canonizes.store (.operand (Expr.canonizes ha)) (.operand (Expr.canonizes hv))
  | .move (.temp dst) _, _, _, _, h => by
    obtain ⟨_, _, hv, rfl⟩ := Stmt.canonize_set h
    have hset : Canonizes (.stmt (.move (.temp dst) _)) _ _ _ :=
      .set (.operand (Expr.canonizes hv))
    simpa using hset
  | .move (.const _) _, _, _, _, h | .move (.name _) _, _, _, _, h
  | .move (.binary ..) _, _, _, _, h | .move (.unary ..) _, _, _, _, h
  | .move (.call ..) _, _, _, _, h | .move (.after ..) _, _, _, _, h => by
    rcases Stmt.canonize_move h with ⟨_, hd⟩ | ⟨_, hd⟩ <;> cases hd
termination_by structural st => st

theorem Stmt.allCanonizes :
    ∀ {ss : List Stmt} {s s' : Session} {code : List Stmt},
      Stmt.canonizeAll loc ss s = .ok code s' → Canonizes (.stmts ss) s.names code s'.names
  | [], _, _, _, h => by
    obtain ⟨rfl, rfl⟩ := Stmt.canonizeAll_nil h
    exact .noStmts
  | _ :: _, _, _, _, h => by
    obtain ⟨_, _, _, h₁, h₂, rfl⟩ := Stmt.canonizeAll_cons h
    exact .next (Stmt.canonizes h₁) (Stmt.allCanonizes h₂)
termination_by structural ss => ss

theorem Expr.canonizes :
    ∀ {e : Expr} {s s' : Session} {pre : List Stmt} {val : Expr},
      e.canonize loc s = .ok (pre, val) s' → Canonizes (.expr e val) s.names pre s'.names
  | .const _, _, _, _, _, h => by
    obtain ⟨rfl, rfl, rfl⟩ := Expr.canonize_const h
    exact .const
  | .name _, _, _, _, _, h => by
    obtain ⟨rfl, rfl, rfl⟩ := Expr.canonize_name h
    exact .name
  | .temp _, _, _, _, _, h => by
    obtain ⟨rfl, rfl, rfl⟩ := Expr.canonize_temp h
    exact .temp
  | .mem _, _, _, _, _, h => by
    obtain ⟨_, _, _, ha, rfl, rfl, hs⟩ := Expr.canonize_mem h
    rw [hs]
    exact .mem (Expr.canonizes ha)
  | .binary op .., _, _, _, _, h => by
    obtain ⟨_, _, _, _, _, _, hl, hr, rfl, rfl, hs⟩ := Expr.canonize_binary h
    rw [hs]
    have hboth : Canonizes (.expr (.binary op _ _) _) _ _ _ :=
      .binary (.operand (Expr.canonizes hl)) (.operand (Expr.canonizes hr))
    simpa using hboth
  | .unary .., _, _, _, _, h => by
    obtain ⟨_, he, rfl⟩ := Expr.canonize_unary h
    exact .unary (Expr.canonizes he)
  | .call .., _, _, _, _, h => by
    obtain ⟨_, ha, rfl⟩ := Expr.canonize_call h
    exact .call (Expr.argsCanonizes ha)
  | .after .., _, _, _, _, h => by
    obtain ⟨_, _, _, hc, he, rfl⟩ := Expr.canonize_after h
    exact .after (Stmt.canonizes hc) (Expr.canonizes he)
termination_by structural e => e

theorem Expr.argsCanonizes :
    ∀ {as : List Expr} {s s' : Session} {pre : List Stmt} {ts : List Expr},
      Expr.canonizeArgs loc as s = .ok (pre, ts) s' → Canonizes (.args as ts) s.names pre s'.names
  | [], _, _, _, _, h => by
    obtain ⟨rfl, rfl, rfl⟩ := Expr.canonizeArgs_nil h
    exact .noArgs
  | _ :: _, _, _, _, _, h => by
    obtain ⟨_, _, _, _, _, ha, has, rfl, rfl⟩ := Expr.canonizeArgs_cons h
    simpa using Canonizes.arg (.operand (Expr.canonizes ha)) (Expr.argsCanonizes has)
termination_by structural as => as

end

variable {t : Tree} {n m : Names} {code : List Stmt}

theorem Canonizes.le (h : Canonizes t n code m) : n ≤ m := by
  induction h with
  | const | name | temp | noArgs | label | jump | noStmts => exact Names.le_refl _
  | mem _ ih | operand _ ih => exact Names.le_trans (Names.le_newTemp _) ih
  | unary _ ih | call _ ih | branch _ ih | eval _ ih | set _ ih | seq _ ih => exact ih
  | binary _ _ ih₁ ih₂ | after _ _ ih₁ ih₂ | arg _ _ ih₁ ih₂ | store _ _ ih₁ ih₂
  | next _ _ ih₁ ih₂ => exact Names.le_trans ih₁ ih₂

theorem Canonizes.drawn {u : Temp} (h : Canonizes (.operand e u) n code m) :
    ¬ n.HasTemp u ∧ m.HasTemp u := by
  cases h with
  | operand h => exact ⟨Nat.lt_irrefl _, Names.temps_le h.le⟩

end Canonizes

/-! ## What directs control is kept -/

/-- What directs control: a place to go to, or going there. -/
inductive Transfer where
  | label (l : Label)
  | jump (l : Label)
  | branch (pos neg : Label)
  deriving DecidableEq, Repr

mutual

/-- What directs control in an expression, in the order of evaluation. -/
def Expr.transfers : Expr → List Transfer
  | .const _ | .name _ | .temp _ => []
  | .mem a => a.transfers
  | .binary _ l r => l.transfers ++ r.transfers
  | .unary _ e => e.transfers
  | .call _ _ args => Expr.listTransfers args
  | .after s e => s.transfers ++ e.transfers

def Expr.listTransfers : List Expr → List Transfer
  | [] => []
  | e :: es => e.transfers ++ Expr.listTransfers es

/-- What directs control in a statement: a branch comes after what stands in its condition, and
what stands in the value of a move after what stands in its destination. -/
def Stmt.transfers : Stmt → List Transfer
  | .move dst src => dst.transfers ++ src.transfers
  | .eval e => e.transfers
  | .branch c pos neg => c.transfers ++ [.branch pos neg]
  | .jump l => [.jump l]
  | .label l => [.label l]
  | .seq ss => Stmt.listTransfers ss

def Stmt.listTransfers : List Stmt → List Transfer
  | [] => []
  | s :: ss => s.transfers ++ Stmt.listTransfers ss

end

@[simp] theorem Stmt.listTransfers_append (ss ts : List Stmt) :
    Stmt.listTransfers (ss ++ ts) = Stmt.listTransfers ss ++ Stmt.listTransfers ts := by
  induction ss with
  | nil => rfl
  | cons s ss ih => simp only [List.cons_append, Stmt.listTransfers, ih, List.append_assoc]

@[simp] def Tree.transfers : Tree → List Transfer
  | .expr e _ | .operand e _ => e.transfers
  | .args es _ => Expr.listTransfers es
  | .stmt st => st.transfers
  | .stmts ss => Stmt.listTransfers ss

@[simp] def Tree.vals : Tree → List Expr
  | .expr _ val => [val]
  | .operand _ t => [.temp t]
  | .args _ vals => vals
  | .stmt _ | .stmts _ => []

theorem Canonizes.transfers {t : Tree} {n m : Names} {code : List Stmt} (h : Canonizes t n code m) :
    Stmt.listTransfers code = t.transfers ∧ Expr.listTransfers t.vals = [] := by
  induction h with
  | const | name | temp | noArgs | label | jump | noStmts => exact ⟨rfl, rfl⟩
  | mem _ ih | operand _ ih | branch _ ih | eval _ ih | set _ ih =>
    obtain ⟨hcode, hval⟩ := ih
    simp_all [Stmt.listTransfers, Stmt.transfers, Expr.listTransfers, Expr.transfers]
  | unary _ ih => exact ih
  | call _ ih => exact ⟨ih.1, (List.append_nil _).trans ih.2⟩
  | seq _ ih => exact ih
  | binary _ _ ih₁ ih₂ | after _ _ ih₁ ih₂ | arg _ _ ih₁ ih₂ | store _ _ ih₁ ih₂
  | next _ _ ih₁ ih₂ =>
    obtain ⟨hcode₁, -⟩ := ih₁
    obtain ⟨hcode₂, hval⟩ := ih₂
    simp_all [Stmt.listTransfers, Stmt.transfers, Expr.listTransfers, Expr.transfers]

theorem Stmt.transfers_canonize {loc : Location} {s s' : Session} {code : List Stmt}
    (h : st.canonize loc s = .ok code s') : Stmt.listTransfers code = st.transfers :=
  (Stmt.canonizes h).transfers.1

/-! ## Labels are kept -/

mutual

/-- The labels that an expression defines, in the order of evaluation. -/
def Expr.labels : Expr → List Label
  | .const _ | .name _ | .temp _ => []
  | .mem a => a.labels
  | .binary _ l r => l.labels ++ r.labels
  | .unary _ e => e.labels
  | .call _ _ args => Expr.listLabels args
  | .after s e => s.labels ++ e.labels

def Expr.listLabels : List Expr → List Label
  | [] => []
  | e :: es => e.labels ++ Expr.listLabels es

def Stmt.labels : Stmt → List Label
  | .move dst src => dst.labels ++ src.labels
  | .eval e => e.labels
  | .branch c _ _ => c.labels
  | .jump _ => []
  | .label l => [l]
  | .seq ss => Stmt.listLabels ss

def Stmt.listLabels : List Stmt → List Label
  | [] => []
  | s :: ss => s.labels ++ Stmt.listLabels ss

end

@[simp] theorem Stmt.listLabels_append (ss ts : List Stmt) :
    Stmt.listLabels (ss ++ ts) = Stmt.listLabels ss ++ Stmt.listLabels ts := by
  induction ss with
  | nil => rfl
  | cons s ss ih => simp only [List.cons_append, Stmt.listLabels, ih, List.append_assoc]

theorem Stmt.mem_listLabels (hst : st ∈ ss) (hl : l ∈ st.labels) : l ∈ Stmt.listLabels ss := by
  obtain ⟨xs, ys, rfl⟩ := List.append_of_mem hst
  rw [Stmt.listLabels_append]
  exact List.mem_append_right _ (List.mem_append_left _ hl)

def Transfer.label? : Transfer → Option Label
  | .label l => some l
  | .jump _ | .branch .. => none

mutual

theorem Stmt.filterMap_transfers :
    ∀ st : Stmt, st.transfers.filterMap Transfer.label? = st.labels
  | .move dst src => by
    rw [Stmt.transfers, Stmt.labels, List.filterMap_append, Expr.filterMap_transfers dst,
      Expr.filterMap_transfers src]
  | .eval e => Expr.filterMap_transfers e
  | .branch c _ _ => by
    rw [Stmt.transfers, Stmt.labels, List.filterMap_append, Expr.filterMap_transfers c]
    exact List.append_nil _
  | .jump _ | .label _ => rfl
  | .seq ss => Stmt.filterMap_listTransfers ss
termination_by structural st => st

theorem Stmt.filterMap_listTransfers :
    ∀ ss : List Stmt, (Stmt.listTransfers ss).filterMap Transfer.label? = Stmt.listLabels ss
  | [] => rfl
  | s :: ss => by
    rw [Stmt.listTransfers, Stmt.listLabels, List.filterMap_append, Stmt.filterMap_transfers s,
      Stmt.filterMap_listTransfers ss]
termination_by structural ss => ss

theorem Expr.filterMap_transfers :
    ∀ e : Expr, e.transfers.filterMap Transfer.label? = e.labels
  | .const _ | .name _ | .temp _ => rfl
  | .mem a => Expr.filterMap_transfers a
  | .unary _ e => Expr.filterMap_transfers e
  | .binary _ l r => by
    rw [Expr.transfers, Expr.labels, List.filterMap_append, Expr.filterMap_transfers l,
      Expr.filterMap_transfers r]
  | .call _ _ args => Expr.filterMap_listTransfers args
  | .after s e => by
    rw [Expr.transfers, Expr.labels, List.filterMap_append, Stmt.filterMap_transfers s,
      Expr.filterMap_transfers e]
termination_by structural e => e

theorem Expr.filterMap_listTransfers :
    ∀ es : List Expr, (Expr.listTransfers es).filterMap Transfer.label? = Expr.listLabels es
  | [] => rfl
  | e :: es => by
    rw [Expr.listTransfers, Expr.listLabels, List.filterMap_append, Expr.filterMap_transfers e,
      Expr.filterMap_listTransfers es]
termination_by structural es => es

end

/-- The labels of a tree come out in the order in which the tree has them. -/
theorem Stmt.labels_canonize {loc : Location} {s s' : Session} {code : List Stmt}
    (h : st.canonize loc s = .ok code s') : Stmt.listLabels code = st.labels := by
  rw [← Stmt.filterMap_listTransfers, Stmt.transfers_canonize h, Stmt.filterMap_transfers]

end Ir

end MmixBackend
