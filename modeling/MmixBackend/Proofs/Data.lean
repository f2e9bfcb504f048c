import MmixBackend.Proofs.Faults
import MmixBackend.Proofs.Linkage

/-!
# The data that trees name

A tree names data in two ways: a string literal stands for its text, and a variable at top level for
its cell.  The machine places all data of a program before it starts, and what trees name is among
them.  So an evaluation looks up no address in vain, and never fails with a fault of the code.
-/

namespace MmixBackend

open Typed Machine

/-! ## Evaluations that do not blame the code -/

namespace Evaluation

variable {α β : Type}

/-- An evaluation whose faults are none of the code itself. -/
def Safe (x : Evaluation α) : Prop := ∀ (w : World) (f : Fault), x w = .fault f → ¬ f.OfCode

theorem safe_pure (a : α) : Safe (pure a) := by
  intro w f h
  cases h

theorem Safe.bind {x : Evaluation α} {g : α → Evaluation β} (hx : Safe x)
    (hg : ∀ a, Safe (g a)) : Safe (x >>= g) := by
  intro w f h
  have h' : (x w >>= fun r => g r.1 r.2) = .fault f := h
  cases hw : x w with
  | value r =>
    rw [hw] at h'
    exact hg r.1 r.2 f h'
  | fault f' =>
    rw [hw] at h'
    cases h'
    exact hx w _ hw
  | unfinished | meaningless =>
    rw [hw] at h'
    cases h'

theorem safe_unfinished : Safe (unfinished : Evaluation α) := by
  intro w f h
  cases h

theorem safe_meaningless : Safe (meaningless : Evaluation α) := by
  intro w f h
  cases h

theorem safe_load (a : Word) : Safe (load a) := by
  intro w f h
  cases h

theorem safe_store (a v : Word) : Safe (store a v) := by
  intro w f h
  cases h

theorem safe_exactly (x : Except Overflow α) : Safe (exactly x) := by
  intro w f h
  cases x with
  | ok a => cases h
  | error cause =>
    cases h
    exact id

theorem safe_builtin (w : World) (name : String) : Safe (lift (builtin w name)) := by
  intro w' f h
  cases hb : builtin w name with
  | ok r =>
    rw [hb] at h
    cases h
  | error f' =>
    rw [hb] at h
    cases h
    rcases builtin_error hb with ⟨_, rfl⟩ | ⟨rfl, -⟩
    · exact id
    · exact id

theorem safe_follow (n : Nat) (fp : Word) : Safe (follow n fp) := by
  induction n generalizing fp with
  | zero => exact safe_pure fp
  | succ n ih => exact (safe_load fp).bind ih

theorem Safe.plain {x : Evaluation Word} (h : Safe x) (k : Nat) : Safe (plain x k) := by
  cases k with
  | zero => exact h
  | succ k => exact safe_meaningless

theorem Safe.reading {x : Evaluation Word} (h : Safe x) (k : Nat) : Safe (reading x k) := by
  match k with
  | 0 => exact h.bind safe_load
  | 1 => exact h
  | _ + 2 => exact safe_meaningless

theorem Safe.repeatWhile {test : Evaluation Word} {body : Evaluation Unit} (ht : Safe test)
    (hb : Safe body) (n : Nat) : Safe (repeatWhile test body n) := by
  induction n with
  | zero => exact safe_unfinished
  | succ n ih =>
    refine ht.bind fun v => ?_
    split
    · exact hb.bind fun _ => ih
    · exact safe_pure ()

/-- A call is safe when the bodies that it can reach are. -/
theorem safe_invoke {run : Frame → Word → Expr → Evaluation Word} {callee : Callee}
    (h : ∀ frame e, callee = .body frame e → ∀ fp, Safe (run frame fp e))
    (offsets args : List Word) : Safe (invoke run callee offsets args) := by
  have hget : Safe (get : Evaluation World) := by
    intro w f hf
    cases hf
  have hset : ∀ w : World, Safe (set w : Evaluation PUnit) := by
    intro w w' f hf
    cases hf
  have hmodify : ∀ g : World → World, Safe (modify g : Evaluation PUnit) := by
    intro g w f hf
    cases hf
  refine hget.bind fun w => (safe_exactly _).bind fun m => ?_
  cases callee with
  | body frame e =>
    refine (safe_exactly _).bind fun sp => (hset _).bind fun _ => ?_
    refine (h frame e rfl w.sp).bind fun v => (hmodify _).bind fun _ => ?_
    exact safe_pure v
  | provided name =>
    refine (safe_builtin _ name).bind fun r => (hset _).bind fun _ => ?_
    exact safe_pure r.2

end Evaluation

/-! ## Trees whose data are placed -/

namespace Setting

/-- The literals among expressions have addresses. -/
def Placed (s : Setting) (xs : List Expr) : Prop :=
  ∀ x ∈ xs, ∀ d : DataChunk, x.literalChunk? s.layout = some d → ∃ a, s.data[d.label]? = some a

@[simp] theorem placed_cons {s : Setting} {x : Expr} {xs : List Expr} :
    s.Placed (x :: xs) ↔
      (∀ d : DataChunk, x.literalChunk? s.layout = some d → ∃ a, s.data[d.label]? = some a) ∧
        s.Placed xs := List.forall_mem_cons

@[simp] theorem placed_append {s : Setting} {xs ys : List Expr} :
    s.Placed (xs ++ ys) ↔ s.Placed xs ∧ s.Placed ys := List.forall_mem_append

/-- Variables at top level and the literals of all functions have addresses. -/
structure Complete (s : Setting) : Prop where
  cells : ∀ ⦃d : DeclId⦄ ⦃l : Label⦄ ⦃size : Word⦄ ⦃init : Option String⦄,
    s.layout.accesses[d]? = some (.absolute l size init) → ∃ a, s.data[l]? = some a
  function : ∀ ⦃d : DeclId⦄ ⦃frame : Frame⦄ ⦃e : Expr⦄,
    s.linkage.function d = some (.body frame e) → s.Placed e.within
  runtime : ∀ ⦃name : String⦄ ⦃frame : Frame⦄ ⦃e : Expr⦄,
    s.linkage.runtime name = .body frame e → s.Placed e.within

end Setting

/-- All data are placed, and the bodies of functions are safe to run. -/
structure Running.Supplied (c : Running) : Prop where
  setting : c.setting.Complete
  run : ∀ (frame : Frame) (fp : Word) (e : Expr), c.setting.Placed e.within →
    Evaluation.Safe (c.run frame fp e)

namespace Evaluation

theorem safe_address {s : Setting} {l : Label} (h : ∃ a, s.data[l]? = some a) :
    Safe (address s l) := by
  obtain ⟨a, ha⟩ := h
  unfold address
  rw [ha]
  exact safe_pure a

theorem safe_sizeOf (ty : Ty) : Safe (sizeOf ty) := by
  unfold sizeOf
  split
  · exact safe_pure _
  · exact safe_meaningless

theorem safe_offsetBy (a b : Word) : Safe (offsetBy a b) := by
  unfold offsetBy
  split
  · exact safe_pure _
  · exact safe_meaningless

section Trees

variable {c : Running}

theorem safe_component (d : DeclId) : Safe (component c d) := by
  unfold component
  split
  · exact safe_pure _
  · exact safe_meaningless

theorem safe_link (depth : Nat) : Safe (link c depth) := by
  unfold link
  split
  · exact safe_pure _
  · split
    · exact safe_follow _ _
    · exact safe_meaningless

theorem safe_cell (hc : c.setting.Complete) (d : DeclId) : Safe (cell c d) := by
  unfold cell
  split
  · next ha => exact safe_address (hc.cells ha)
  · split
    · exact (safe_follow _ _).bind fun _ => safe_pure _
    · exact safe_meaningless
  · exact safe_meaningless

theorem safe_atom {node : Node} {a : Atom} (h : c.setting.Placed [Expr.atom node a]) :
    Safe (atom c node a) := by
  cases a with
  | str text =>
    dsimp only [atom]
    split
    · next l size init hl =>
      refine safe_address (h _ List.mem_cons_self ⟨l, size, init⟩ ?_)
      simp [Expr.literalChunk?, hl, DataChunk.ofAccess?]
    · exact safe_meaningless
  | void | nil | bool | char | int => exact safe_pure _

mutual

theorem safe_expr (hc : c.Supplied) :
    ∀ {e : Expr} {k : Nat}, c.setting.Placed e.within → Safe (expr c e k)
  | .atom node a, k, h => by
    rw [expr]
    exact (safe_atom h).plain k
  | .name node d, k, h => by
    rw [expr]
    exact (safe_cell hc.setting d).reading k
  | .index node arr idx, k, h => by
    simp only [Expr.within, Setting.placed_cons, Setting.placed_append] at h
    rw [expr]
    refine Safe.reading ((safe_expr hc h.2.1).bind fun a => ?_) k
    exact (safe_expr hc h.2.2).bind fun i => (safe_sizeOf _).bind fun n => safe_pure _
  | .field node base d, k, h => by
    simp only [Expr.within, Setting.placed_cons] at h
    rw [expr]
    refine Safe.reading ((safe_expr hc h.2).bind fun a => ?_) k
    exact (safe_component d).bind fun offset => safe_pure _
  | .binary node op lhs rhs, k, h => by
    simp only [Expr.within, Setting.placed_cons, Setting.placed_append] at h
    rw [expr]
    refine Safe.plain ((safe_expr hc h.2.1).bind fun x => ?_) k
    exact (safe_expr hc h.2.2).bind fun y => safe_pure _
  | .unary node op e, k, h => by
    simp only [Expr.within, Setting.placed_cons] at h
    have hinvoke : ∀ name offsets args,
        Safe (invoke c.run (c.setting.linkage.runtime name) offsets args) := fun name _ _ =>
      safe_invoke (fun frame e' he fp => hc.run frame fp e' (hc.setting.runtime he)) _ _
    cases op with
    | plus =>
      show Safe (expr c e k)
      exact safe_expr hc h.2
    | minus | not => exact Safe.plain ((safe_expr hc h.2).bind fun v => safe_pure _) k
    | addressOf =>
      show Safe (expr c e (k + 1))
      exact safe_expr hc h.2
    | new | del => exact Safe.plain ((safe_expr hc h.2).bind fun v => hinvoke _ _ _) k
  | .deref node e, 0, h => by
    simp only [Expr.within, Setting.placed_cons] at h
    rw [expr]
    exact (safe_expr hc h.2).bind safe_load
  | .deref node e, k + 1, h => by
    simp only [Expr.within, Setting.placed_cons] at h
    rw [expr]
    exact safe_expr hc h.2
  | .call node f args, k, h => by
    simp only [Expr.within, Setting.placed_cons] at h
    rw [expr]
    split
    · next hcallee =>
      refine Safe.plain ((safe_link _).bind fun fp => ?_) k
      refine (safe_arguments hc h.2).bind fun r => safe_invoke ?_ _ _
      rintro frame e' rfl fp'
      exact hc.run frame fp' e' (hc.setting.function hcallee)
    · exact safe_meaningless
  | .cast node ty e, k, h => by
    simp only [Expr.within, Setting.placed_cons] at h
    rw [expr]
    split
    · exact Safe.plain ((safe_expr hc h.2).bind fun v => safe_pure _) k
    · exact safe_expr hc h.2
  | .block node body, k, h => by
    simp only [Expr.within, Setting.placed_cons] at h
    rw [expr]
    exact (safe_block hc h.2).plain k
  | .scope node e decls, k, h => by
    simp only [Expr.within, Setting.placed_cons] at h
    rw [expr]
    exact safe_expr hc h.2

theorem safe_arguments (hc : c.Supplied) : ∀ {args : List Expr} {offset : Word},
    c.setting.Placed (Expr.listWithin args) → Safe (arguments c offset args)
  | [], offset, h => by
    rw [arguments]
    exact safe_pure _
  | a :: as, offset, h => by
    simp only [Expr.listWithin, Setting.placed_append] at h
    rw [arguments]
    refine (safe_expr hc h.1).bind fun v => (safe_sizeOf _).bind fun n => ?_
    refine (safe_offsetBy _ _).bind fun next => (safe_arguments hc h.2).bind fun r => ?_
    exact safe_pure _

theorem safe_block (hc : c.Supplied) : ∀ {ss : List Stmt}, c.setting.Placed (Stmt.listWithin ss) →
    Safe (block c ss)
  | [], h => by
    rw [block]
    exact safe_pure _
  | [.eval mark e], h => by
    simp only [Stmt.listWithin, Stmt.within, List.append_nil] at h
    rw [block]
    exact safe_expr hc h
  | .assign .. :: _, h | .cond .. :: _, h | .loop .. :: _, h | .eval .. :: _ :: _, h => by
    rw [Stmt.listWithin, Setting.placed_append] at h
    rw [block]
    · exact (safe_stmt hc h.1).bind fun _ => safe_block hc h.2
    · simp

theorem safe_stmt (hc : c.Supplied) : ∀ {st : Stmt}, c.setting.Placed st.within → Safe (stmt c st)
  | .assign mark dst src, h => by
    rw [Stmt.within, Setting.placed_append] at h
    rw [stmt]
    exact (safe_expr hc h.1).bind fun a => (safe_expr hc h.2).bind fun v => safe_store a v
  | .eval mark e, h => by
    rw [stmt]
    exact (safe_expr hc h).bind fun _ => safe_pure _
  | .cond mark test yes no, h => by
    simp only [Stmt.within, Setting.placed_append] at h
    rw [stmt]
    refine (safe_expr hc h.1.1).bind fun v => ?_
    split
    · exact safe_stmts hc h.1.2
    · exact safe_stmts hc h.2
  | .loop mark test body, h => by
    rw [Stmt.within, Setting.placed_append] at h
    rw [stmt]
    exact (safe_expr hc h.1).repeatWhile (safe_stmts hc h.2) _

theorem safe_stmts (hc : c.Supplied) :
    ∀ {ss : List Stmt}, c.setting.Placed (Stmt.listWithin ss) → Safe (stmts c ss)
  | [], h => by
    rw [stmts]
    exact safe_pure _
  | st :: ss, h => by
    rw [Stmt.listWithin, Setting.placed_append] at h
    rw [stmts]
    exact (safe_stmt hc h.1).bind fun _ => safe_stmts hc h.2

end

end Trees

/-- The body of a function is safe, and by induction on the fuel so is all that it calls. -/
theorem safe_function {s : Setting} (hs : s.Complete) (n : Nat) :
    ∀ (frame : Frame) (fp : Word) (e : Expr), s.Placed e.within →
      Safe (function s n frame fp e) := by
  induction n with
  | zero =>
    intro frame fp e _
    exact safe_unfinished
  | succ n ih =>
    intro frame fp e he
    rw [function]
    exact safe_expr ⟨hs, ih⟩ he

end Evaluation

/-! ## The data of a program -/

/-- Every label of the data that are placed gets an address. -/
theorem exists_of_placeData {ds : List DataChunk} {l : Label} :
    ∀ {addr : Word} {places places' : Table Label Word} {m m' : Memory},
      placeData addr places m ds = .ok (places', m') →
      (∃ a, places[l]? = some a) ∨ (∃ d ∈ ds, d.label = l) → ∃ a, places'[l]? = some a := by
  induction ds with
  | nil =>
    rintro addr places places' m m' h (hl | ⟨d, hd, -⟩)
    · cases h
      exact hl
    · cases hd
  | cons d ds ih =>
    intro addr places places' m m' h hl
    have hrest : ∃ m₁ next, placeData next (places.insert d.label addr) m₁ ds =
        .ok (places', m') := by
      rw [placeData] at h
      split at h
      all_goals
        obtain ⟨m₁, -, h⟩ := bind_eq_ok h
        obtain ⟨next, -, h⟩ := bind_eq_ok h
        exact ⟨m₁, next, h⟩
    obtain ⟨m₁, next, hrest⟩ := hrest
    refine ih hrest ?_
    by_cases hd : d.label = l
    · exact Or.inl ⟨addr, hd ▸ Std.ExtTreeMap.getElem?_insert_self⟩
    · rcases hl with ⟨a, ha⟩ | ⟨d', hd', rfl⟩
      · exact Or.inl ⟨a, (Table.getElem?_insert_of_ne hd).trans ha⟩
      · rcases List.mem_cons.mp hd' with rfl | hd'
        · exact absurd rfl hd
        · exact Or.inr ⟨d', hd', rfl⟩

namespace Typed

mutual

theorem Routine.mem_data {layout : Layout} {f : Head × Expr} {x : Expr} {d : DataChunk}
    (hx : x ∈ f.2.within) (hd : x.literalChunk? layout = some d) :
    ∀ {r : Routine}, f ∈ r.functions → d ∈ r.data layout
  | .mk head none inner, hf => by cases hf
  | .mk head (some body) inner, hf => by
    rw [Routine.data]
    rcases List.mem_append.mp hf with hf | hf
    · exact List.mem_append_right _ (Routine.mem_listData hx hd hf)
    · cases List.mem_singleton.mp hf
      exact List.mem_append_left _ (List.mem_filterMap.mpr ⟨x, hx, hd⟩)

theorem Routine.mem_listData {layout : Layout} {f : Head × Expr} {x : Expr} {d : DataChunk}
    (hx : x ∈ f.2.within) (hd : x.literalChunk? layout = some d) :
    ∀ {rs : List Routine}, f ∈ Routine.listFunctions rs → d ∈ Routine.listData layout rs
  | [], hf => by cases hf
  | r :: rs, hf => by
    rw [Routine.listData]
    rcases List.mem_append.mp hf with hf | hf
    · exact List.mem_append_left _ (Routine.mem_data hx hd hf)
    · exact List.mem_append_right _ (Routine.mem_listData hx hd hf)

end

namespace Program

variable {p : Program} {layout : Layout}

/-- The literals in the bodies of functions are among the data of the program. -/
theorem mem_data_of_literal {f : Head × Expr} {x : Expr} {d : DataChunk} (hf : f ∈ p.functions)
    (hx : x ∈ f.2.within) (hd : x.literalChunk? layout = some d) : d ∈ p.data layout := by
  have hlist := Routine.mem_listData hx hd hf
  rw [Program.data]
  generalize p.decls = ds at hlist
  induction ds with
  | nil => cases hlist
  | cons decl ds ih =>
    rw [List.flatMap_cons]
    cases decl with
    | var v | foreign head => exact List.mem_append_right _ (ih hlist)
    | fn head body =>
      rcases List.mem_append.mp hlist with hd | hlist
      · exact List.mem_append_left _ hd
      · exact List.mem_append_right _ (ih hlist)

/-- Cells with an address are among the data of the program. -/
theorem mem_data_of_access {s s' : Session} (h : p.layout s = .ok layout s') {d : DeclId}
    {l : Label} {size : Word} {init : Option String}
    (hd : layout.accesses[d]? = some (.absolute l size init)) :
    ⟨l, size, init⟩ ∈ p.data layout := by
  obtain ⟨v, hv, rfl⟩ := Layouting.var_of_addressed h ⟨l, size, init, hd⟩
  refine List.mem_flatMap.mpr ⟨.var v, hv, ?_⟩
  simp [Decl.data, hd, DataChunk.ofAccess?]

section Placed

variable {data : Table Label Word} {m : Memory}

/-- When the data of a program are placed, so are the literals of the bodies under labels. -/
theorem placed_of_bodies (hplace : placeData dataStart ∅ {} (p.data layout) = .ok (data, m))
    (names : Names) (linkage : Linkage) {l : Label} {frame : Frame} {e : Expr}
    (h : (p.bodies layout)[l]? = some (frame, e)) :
    Setting.Placed { names, layout, data, linkage } e.within := by
  intro x hx d hd
  rcases mem_enter h with hnone | ⟨head, hf, -⟩
  · simp at hnone
  · exact exists_of_placeData hplace (Or.inr ⟨d, mem_data_of_literal hf hx hd, rfl⟩)

/-- When the data of a program are placed, all that its trees name has an address. -/
theorem complete {s s' : Session} (h : p.layout s = .ok layout s')
    (hplace : placeData dataStart ∅ {} (p.data layout) = .ok (data, m)) (names : Names) :
    Setting.Complete { names, layout, data, linkage := p.byLabel names layout } := by
  have hunder : ∀ {l : Label} {frame : Frame} {e : Expr},
      Callee.under names (p.bodies layout) l = .body frame e →
      Setting.Placed { names, layout, data, linkage := p.byLabel names layout } e.within := by
    intro l frame e hl
    unfold Callee.under at hl
    split at hl
    · next hbody =>
      cases hl
      exact placed_of_bodies hplace names _ hbody
    · cases hl
  refine ⟨fun d l size init hd => ?_, fun d frame e hd => ?_, fun name frame e hn => ?_⟩
  · exact exists_of_placeData hplace (Or.inr ⟨_, mem_data_of_access h hd, rfl⟩)
  · obtain ⟨_, -, hl⟩ := Option.map_eq_some_iff.mp hd
    exact hunder hl
  · simp only [byLabel] at hn
    split at hn
    · exact hunder hn
    · cases hn

end Placed

end Program

end Typed

end MmixBackend
