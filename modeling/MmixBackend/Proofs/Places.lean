import MmixBackend.Proofs.Sizes
import MmixBackend.Proofs.Spans

/-!
# Where variables lie

When variables and parameters have numbers of their own and take a word at least, each keeps the
place that it gets: a parameter within the bytes that its function's parameters take above the frame
pointer, and a local variable within the bytes that its function's variables take below it.  The
area for arguments has room for every call in the body.
-/

namespace MmixBackend

open Typed Build

/-! ## What a program declares -/

namespace Typed

def Head.bytes (head : Head) : Int := (head.params.map (·.ty.bytes)).sum

/-- Bytes of the area for arguments that an expression itself needs. -/
def Expr.room : Expr → Int
  | .call _ _ args => 8 + (args.map (·.ty.bytes)).sum
  | .unary _ .new _ | .unary _ .del _ => 16
  | _ => 0

/-- The parameters and variables of a program with their types. -/
def Program.vars (p : Program) : List (DeclId × Ty) := p.items.flatMap Item.vars

def Program.types (p : Program) : List Ty := p.items.flatMap Item.types

def Program.components (p : Program) : List DeclId := p.types.flatMap Ty.components

/-- Parameters and variables have numbers of their own, which no component of a record has. -/
structure Program.Separate (p : Program) : Prop where
  vars : (p.vars.map (·.1)).Nodup
  components : ∀ d ∈ p.components, d ∉ p.vars.map (·.1)

/-- Parameters and variables take a word at least. -/
structure Program.Spaced (p : Program) : Prop extends p.Separate where
  sizes : ∀ v ∈ p.vars, ∀ n, v.2.size = .ok n → Word.size ≤ n

section Spaced

variable {p : Program} {i : Item}

theorem Program.Separate.item_vars (hp : p.Separate) (hi : i ∈ p.items) :
    (i.vars.map (·.1)).Nodup := by
  obtain ⟨before, after, hsplit⟩ := List.append_of_mem hi
  refine hp.vars.sublist (List.Sublist.map _ ?_)
  rw [Program.vars, hsplit, List.flatMap_append, List.flatMap_cons]
  exact (List.sublist_append_left _ _).trans (List.sublist_append_right _ _)

theorem Program.Separate.apart (hp : p.Separate) (hi : i ∈ p.items) {v : DeclId × Ty}
    (hv : v ∈ i.vars) {ty : Ty} (hty : ty ∈ i.types) : v.1 ∉ ty.components := fun hc =>
  hp.components _ (List.mem_flatMap.mpr ⟨ty, List.mem_flatMap.mpr ⟨i, hi, hty⟩, hc⟩)
    (List.mem_map_of_mem (List.mem_flatMap.mpr ⟨i, hi, hv⟩))

theorem Program.Spaced.size (hp : p.Spaced) (hi : i ∈ p.items) {v : DeclId × Ty}
    (hv : v ∈ i.vars) : ∀ n, v.2.size = .ok n → Word.size ≤ n :=
  hp.sizes v (List.mem_flatMap.mpr ⟨i, hi, hv⟩)

end Spaced

end Typed

namespace Layouting

/-! ## Parameters -/

section Params

variable {depth : Nat} {l l' : Layout} {s s' : Session}

theorem params_cons {offset : Word} {q : Param} {qs : List Param}
    (h : params depth offset (q :: qs) l s = .ok ((), l') s') :
    ∃ l₁ s₁ n next, place q.ty l s = .ok ((), l₁) s₁ ∧ q.ty.size = .ok n ∧
      Word.checkedAdd offset n = .ok next ∧
      params depth next qs
        { l₁ with accesses := l₁.accesses.insert q.id (.relative offset depth) } s₁ =
          .ok ((), l') s' := by
  simp only [params, access, stateT_bind_ok, stateT_lift_ok, stateT_modify_ok, exactly_ok] at h
  obtain ⟨_, l₁, s₁, hplace, _, _, _, ⟨rfl, rfl⟩, n, _, _, ⟨⟨hn, rfl⟩, rfl⟩, next, _, _,
    ⟨⟨hnext, rfl⟩, rfl⟩, hrest⟩ := h
  exact ⟨l₁, _, n, next, hplace, hn, hnext, hrest⟩

theorem params_lie {qs : List Param} :
    ∀ {offset : Word} {l l' : Layout} {s s' : Session},
      params depth offset qs l s = .ok ((), l') s' → (qs.map (·.id)).Nodup →
      (∀ q ∈ qs, ∀ q' ∈ qs, q.id ∉ q'.ty.components) →
      List.Forall₂ (Lies l'.accesses depth) (qs.map fun q => (q.id, q.ty))
        (Span.upFrom offset.toInt (qs.map (·.ty.bytes))) := by
  induction qs with
  | nil =>
    intro offset l l' s s' _ _ _
    exact .nil
  | cons q qs ih =>
    intro offset l l' s s' h hnd hcomps
    obtain ⟨l₁, s₁, n, next, -, hn, hnext, hrest⟩ := params_cons h
    obtain ⟨hnew, hnd'⟩ := List.nodup_cons.mp hnd
    have hothers := ih hrest hnd'
      (fun r hr r' hr' => hcomps r (List.mem_cons_of_mem _ hr) r' (List.mem_cons_of_mem _ hr'))
    rw [Word.toInt_checkedAdd hnext] at hothers
    rw [List.map_cons, List.map_cons, Span.upFrom, Ty.bytes_eq hn]
    refine .cons ⟨offset, n, ?_, hn, rfl⟩ hothers
    -- what follows gives the first one no other place
    rw [((makes_params depth next qs).fills hrest).others_ofVar,
      Std.ExtTreeMap.getElem?_insert_self]
    · exact List.forall_mem_map.mpr fun q' hq' heq => hnew (List.mem_map.mpr ⟨q', hq', heq⟩)
    · exact List.forall_mem_map.mpr fun q' hq' =>
        hcomps q List.mem_cons_self q' (List.mem_cons_of_mem _ hq')

end Params

/-! ## Local variables and the area for arguments -/

/-- No less room in both parts. -/
structure Extent.Within (x x' : Extent) : Prop where
  locals : x.locals.toInt ≤ x'.locals.toInt
  arguments : x.arguments.toInt ≤ x'.arguments.toInt

theorem Extent.Within.refl (x : Extent) : x.Within x := ⟨Int.le_refl _, Int.le_refl _⟩

theorem Extent.within_fit (x : Extent) (size : Word) :
    x.Within (x.fit size) ∧ size.toInt ≤ (x.fit size).arguments.toInt := by
  unfold Extent.fit
  split
  · next hlt => exact ⟨⟨Int.le_refl _, Int.le_of_lt (Int64.lt_iff_toInt_lt.mp hlt)⟩, Int.le_refl _⟩
  · next hlt => exact ⟨.refl x, Int.not_lt.mp fun h => hlt (Int64.lt_iff_toInt_lt.mpr h)⟩

section Extents

variable {depth : Nat} {x x' : Extent} {l l' : Layout} {s s' : Session}

variable {ds : List Decl}

theorem locals_var {v : Var} (h : locals depth x (.var v :: ds) l s = .ok (x', l') s') :
    ∃ l₁ s₁ n total offset, place v.ty l s = .ok ((), l₁) s₁ ∧ v.ty.size = .ok n ∧
      Word.checkedAdd x.locals n = .ok total ∧ Word.checkedNeg total = .ok offset ∧
      locals depth { x with locals := total } ds
        { l₁ with accesses := l₁.accesses.insert v.id (.relative offset depth) } s₁ =
          .ok (x', l') s' := by
  simp only [locals, access, stateT_bind_ok, stateT_lift_ok, stateT_modify_ok, exactly_ok] at h
  obtain ⟨_, l₁, s₁, hplace, n, _, _, ⟨⟨hn, rfl⟩, rfl⟩, total, _, _, ⟨⟨htotal, rfl⟩, rfl⟩, offset,
    _, _, ⟨⟨hoffset, rfl⟩, rfl⟩, _, _, _, ⟨rfl, rfl⟩, hrest⟩ := h
  exact ⟨_, _, n, total, offset, hplace, hn, htotal, hoffset, hrest⟩

/-- Local variables take what their types do, and arguments nothing. -/
theorem locals_total :
    ∀ {x x' : Extent} {l l' : Layout} {s s' : Session},
      locals depth x ds l s = .ok (x', l') s' →
      x'.locals.toInt = x.locals.toInt + ((ds.filterMap Decl.var?).map (·.ty.bytes)).sum ∧
        x'.arguments = x.arguments := by
  induction ds with
  | nil =>
    intro x x' l l' s s' h
    obtain ⟨rfl, -, -⟩ := stateT_pure_ok.mp h
    simp
  | cons d ds ih =>
    intro x x' l l' s s' h
    cases d with
    | foreign | fn =>
      rw [locals] at h
      · exact ih h
      · simp
    | var v =>
      obtain ⟨l₁, s₁, n, total, offset, -, hn, htotal, -, hrest⟩ := locals_var h
      obtain ⟨hsum, hargs⟩ := ih hrest
      refine ⟨?_, hargs⟩
      have htotalInt := Word.toInt_checkedAdd htotal
      rw [List.filterMap_cons, Decl.var?, List.map_cons, List.sum_cons, Ty.bytes_eq hn]
      simp only at hsum
      omega

theorem locals_lie :
    ∀ {x x' : Extent} {l l' : Layout} {s s' : Session},
      locals depth x ds l s = .ok (x', l') s' →
      ((ds.filterMap Decl.var?).map (·.id)).Nodup →
      (∀ v ∈ ds.filterMap Decl.var?, ∀ v' ∈ ds.filterMap Decl.var?, v.id ∉ v'.ty.components) →
      List.Forall₂ (Lies l'.accesses depth) ((ds.filterMap Decl.var?).map fun v => (v.id, v.ty))
        (Span.downFrom (-x.locals.toInt) ((ds.filterMap Decl.var?).map (·.ty.bytes))) := by
  induction ds with
  | nil =>
    intro x x' l l' s s' _ _ _
    exact .nil
  | cons d ds ih =>
    intro x x' l l' s s' h hnd hcomps
    cases d with
    | foreign | fn =>
      rw [locals] at h
      · exact ih h hnd hcomps
      · simp
    | var v =>
      obtain ⟨l₁, s₁, n, total, offset, -, hn, htotal, hoffset, hrest⟩ := locals_var h
      obtain ⟨hnew, hnd'⟩ := List.nodup_cons.mp hnd
      have htotalInt := Word.toInt_checkedAdd htotal
      have hoffsetInt := Word.toInt_checkedNeg hoffset
      have hstart : offset.toInt = -x.locals.toInt - n.toInt := by omega
      have hothers := ih hrest hnd' fun u hu u' hu' =>
        hcomps u (List.mem_cons_of_mem _ hu) u' (List.mem_cons_of_mem _ hu')
      simp only at hothers
      rw [← hoffsetInt, hstart] at hothers
      rw [List.filterMap_cons, Decl.var?, List.map_cons, List.map_cons, Span.downFrom,
        Ty.bytes_eq hn]
      refine .cons ⟨offset, n, ?_, hn, by rw [hstart]⟩ hothers
      -- what follows gives the first one no other place
      rw [((makes_locals depth _ ds).fills hrest).others_ofVar,
        Std.ExtTreeMap.getElem?_insert_self]
      · exact List.forall_mem_map.mpr fun u' hu' heq => hnew (List.mem_map.mpr ⟨u', hu', heq⟩)
      · exact List.forall_mem_map.mpr fun u' hu' =>
          hcomps v List.mem_cons_self u' (List.mem_cons_of_mem _ hu')

theorem argumentSizes_eq {args : List Expr} :
    ∀ {sum total : Word}, argumentSizes sum args = .ok total →
      total.toInt = sum.toInt + (args.map (·.ty.bytes)).sum := by
  induction args with
  | nil =>
    intro sum total h
    cases h
    simp
  | cons a as ih =>
    intro sum total h
    obtain ⟨n, hn, h⟩ := except_bind_ok.mp h
    obtain ⟨next, hnext, h⟩ := except_bind_ok.mp h
    have hrest := ih h
    have hnextInt := Word.toInt_checkedAdd hnext
    rw [List.map_cons, List.sum_cons, Ty.bytes_eq hn]
    omega

/-- A visit of an expression that declares variables places them; any other makes room for the
arguments of its call, if it makes one. -/
theorem visit_ok {e : Expr} (h : visit depth x e l s = .ok (x', l') s') :
    (∃ node a decls l₁ s₁, e = .scope node a decls ∧
      locals depth x decls l₁ s₁ = .ok (x', l') s') ∨
    e.locals = [] ∧ (x' = x ∧ e.room = 0 ∨ ∃ size, x' = x.fit size ∧ e.room = size.toInt) := by
  obtain ⟨_, l₁, s₁, -, h⟩ := stateT_bind_ok.mp h
  cases e with
  | atom node a =>
    cases a with
    | str text =>
      obtain ⟨_, _, _, -, h⟩ := stateT_bind_ok.mp h
      obtain ⟨_, _, _, -, h⟩ := stateT_bind_ok.mp h
      obtain ⟨rfl, -, -⟩ := stateT_pure_ok.mp h
      exact Or.inr ⟨rfl, Or.inl ⟨rfl, rfl⟩⟩
    | void | nil | bool | char | int =>
      obtain ⟨rfl, -, -⟩ := stateT_pure_ok.mp h
      exact Or.inr ⟨rfl, Or.inl ⟨rfl, rfl⟩⟩
  | call node f args =>
    obtain ⟨total, _, _, htotal, h⟩ := stateT_bind_ok.mp h
    obtain ⟨size, _, _, hsize, h⟩ := stateT_bind_ok.mp h
    obtain ⟨rfl, -, -⟩ := stateT_pure_ok.mp h
    have htotalInt := argumentSizes_eq (exactly_ok.mp (stateT_lift_ok.mp htotal).1).1
    have hsizeInt := Word.toInt_checkedAdd (exactly_ok.mp (stateT_lift_ok.mp hsize).1).1
    refine Or.inr ⟨rfl, Or.inr ⟨size, rfl, ?_⟩⟩
    have hword : Word.size.toInt = 8 := rfl
    rw [hsizeInt, htotalInt, hword, Int64.toInt_zero, Int.zero_add, Expr.room]
  | unary node op a =>
    cases op with
    | new | del =>
      obtain ⟨rfl, -, -⟩ := stateT_pure_ok.mp h
      exact Or.inr ⟨rfl, Or.inr ⟨16, rfl, rfl⟩⟩
    | not | plus | minus | addressOf =>
      obtain ⟨rfl, -, -⟩ := stateT_pure_ok.mp h
      exact Or.inr ⟨rfl, Or.inl ⟨rfl, rfl⟩⟩
  | cast node ty a =>
    obtain ⟨_, _, _, -, h⟩ := stateT_bind_ok.mp h
    obtain ⟨rfl, -, -⟩ := stateT_pure_ok.mp h
    exact Or.inr ⟨rfl, Or.inl ⟨rfl, rfl⟩⟩
  | scope node a decls => exact Or.inl ⟨node, a, decls, l₁, s₁, rfl, h⟩
  | name | index | field | binary | deref | block =>
    obtain ⟨rfl, -, -⟩ := stateT_pure_ok.mp h
    exact Or.inr ⟨rfl, Or.inl ⟨rfl, rfl⟩⟩

/-- A visit adds up what is declared, and makes room for a call. -/
theorem visit_total {e : Expr} (h : visit depth x e l s = .ok (x', l') s') :
    x'.locals.toInt = x.locals.toInt + (e.locals.map (·.ty.bytes)).sum ∧
      x.arguments.toInt ≤ x'.arguments.toInt ∧ (e.room = 0 ∨ e.room ≤ x'.arguments.toInt) := by
  rcases visit_ok h with ⟨node, a, decls, l₁, s₁, rfl, hdecls⟩ |
    ⟨hnone, ⟨rfl, hroom⟩ | ⟨n, rfl, hroom⟩⟩
  · obtain ⟨hsum, hargs⟩ := locals_total hdecls
    exact ⟨hsum, by rw [hargs], Or.inl rfl⟩
  · exact ⟨by simp [hnone], Int.le_refl _, Or.inl hroom⟩
  · obtain ⟨hin, hfit⟩ := x.within_fit n
    have hlocals : (x.fit n).locals = x.locals := by
      unfold Extent.fit
      split <;> rfl
    exact ⟨by simp [hnone, hlocals], hin.arguments, Or.inr (hroom ▸ hfit)⟩

theorem foldlM_visit_total {es : List Expr} :
    ∀ {x x' : Extent} {l l' : Layout} {s s' : Session},
      es.foldlM (visit depth) x l s = .ok (x', l') s' →
      x'.locals.toInt = x.locals.toInt + ((es.flatMap Expr.locals).map (·.ty.bytes)).sum ∧
        x.arguments.toInt ≤ x'.arguments.toInt ∧
        ∀ e ∈ es, e.room = 0 ∨ e.room ≤ x'.arguments.toInt := by
  induction es with
  | nil =>
    intro x x' l l' s s' h
    obtain ⟨rfl, -, -⟩ := stateT_pure_ok.mp h
    simp
  | cons e es ih =>
    intro x x' l l' s s' h
    obtain ⟨x₁, l₁, s₁, hfirst, hrest⟩ := stateT_bind_ok.mp h
    obtain ⟨hsum, hargs, hroom⟩ := visit_total hfirst
    obtain ⟨hsum', hargs', hrooms⟩ := ih hrest
    refine ⟨?_, Int.le_trans hargs hargs', List.forall_mem_cons.mpr ⟨?_, hrooms⟩⟩
    · rw [List.flatMap_cons, List.map_append, List.sum_append]
      omega
    · exact hroom.imp_right fun hle => Int.le_trans hle hargs'

theorem visit_lie {e : Expr} (h : visit depth x e l s = .ok (x', l') s')
    (hnd : (e.locals.map (·.id)).Nodup)
    (hcomps : ∀ v ∈ e.locals, ∀ ty ∈ e.types, v.id ∉ ty.components) :
    List.Forall₂ (Lies l'.accesses depth) (e.locals.map fun v => (v.id, v.ty))
      (Span.downFrom (-x.locals.toInt) (e.locals.map (·.ty.bytes))) := by
  rcases visit_ok h with ⟨node, a, decls, l₁, s₁, rfl, hdecls⟩ | ⟨hnone, -⟩
  · exact locals_lie hdecls hnd fun v hv v' hv' => hcomps v hv _ (local_ty_mem_types hv')
  · rw [hnone]
    exact .nil

/-- The variables of a body lie one below the other in the order of its expressions. -/
theorem foldlM_visit_lie {es : List Expr} :
    ∀ {x x' : Extent} {l l' : Layout} {s s' : Session},
      es.foldlM (visit depth) x l s = .ok (x', l') s' →
      ((es.flatMap Expr.locals).map (·.id)).Nodup →
      (∀ v ∈ es.flatMap Expr.locals, ∀ ty ∈ es.flatMap Expr.types, v.id ∉ ty.components) →
      List.Forall₂ (Lies l'.accesses depth) ((es.flatMap Expr.locals).map fun v => (v.id, v.ty))
        (Span.downFrom (-x.locals.toInt) ((es.flatMap Expr.locals).map (·.ty.bytes))) := by
  induction es with
  | nil =>
    intro x x' l l' s s' _ _ _
    exact .nil
  | cons e es ih =>
    intro x x' l l' s s' h hnd hcomps
    obtain ⟨x₁, l₁, s₁, hfirst, hrest⟩ := stateT_bind_ok.mp h
    rw [List.flatMap_cons, List.map_append] at hnd
    obtain ⟨hnd₁, hnd₂, hdisj⟩ := List.nodup_append.mp hnd
    simp only [List.flatMap_cons, List.mem_append] at hcomps
    have hhere := visit_lie hfirst hnd₁ fun v hv ty hty => hcomps v (Or.inl hv) ty (Or.inl hty)
    have hothers := ih hrest hnd₂ fun v hv ty hty => hcomps v (Or.inr hv) ty (Or.inr hty)
    have hsum := (visit_total hfirst).1
    rw [show -x₁.locals.toInt = -x.locals.toInt - (e.locals.map (·.ty.bytes)).sum by omega]
      at hothers
    rw [List.flatMap_cons, List.map_append, List.map_append, Span.downFrom_append]
    refine List.rel_append (lie_congr hhere fun v hv => ?_) hothers
    -- what follows gives the variables of the first one no other places
    obtain ⟨u, hu, rfl⟩ := List.mem_map.mp hv
    refine ((makes_visits depth es x₁).fills hrest).others (fun depth? hmem => ?_)
      fun ty hty => hcomps u (Or.inl hu) ty (Or.inr (by simpa using hty))
    obtain ⟨e', he', hmem⟩ := List.mem_flatMap.mp hmem
    obtain ⟨u', hu', heq⟩ := List.mem_map.mp (Expr.var_mem_entries.mp hmem).1
    exact hdisj _ (List.mem_map_of_mem hu) _
      (List.mem_map_of_mem (List.mem_flatMap.mpr ⟨e', he', hu'⟩)) heq.symm

end Extents

/-! ## Items -/

section Items

variable {l l' : Layout} {s s' : Session} {around : List Head} {head : Head} {body : Option Expr}

/-- The first visit starts with no room taken. -/
theorem extent_total {depth : Nat} {x : Extent} (h : extent depth body l s = .ok (x, l') s') :
    x.locals.toInt =
        (((body.toList.flatMap Expr.within).flatMap Expr.locals).map (·.ty.bytes)).sum ∧
      0 ≤ x.arguments.toInt ∧
      ∀ e ∈ body.toList.flatMap Expr.within, e.room ≤ x.arguments.toInt := by
  cases body with
  | none =>
    obtain ⟨rfl, -, -⟩ := stateT_pure_ok.mp h
    simp
  | some body =>
    obtain ⟨hsum, hargs, hrooms⟩ := foldlM_visit_total h
    simp only [Int64.toInt_zero, Int.zero_add] at hsum hargs
    simp only [Option.toList_some, List.flatMap_cons, List.flatMap_nil, List.append_nil]
    exact ⟨hsum, hargs, fun e he => (hrooms e he).elim (fun h => h ▸ hargs) id⟩

theorem extent_lie {depth : Nat} {x : Extent} (h : extent depth body l s = .ok (x, l') s')
    (hnd : (((body.toList.flatMap Expr.within).flatMap Expr.locals).map (·.id)).Nodup)
    (hcomps : ∀ v ∈ (body.toList.flatMap Expr.within).flatMap Expr.locals,
      ∀ ty ∈ (body.toList.flatMap Expr.within).flatMap Expr.types, v.id ∉ ty.components) :
    List.Forall₂ (Lies l'.accesses depth)
      (((body.toList.flatMap Expr.within).flatMap Expr.locals).map fun v => (v.id, v.ty))
      (Span.downFrom 0
        (((body.toList.flatMap Expr.within).flatMap Expr.locals).map (·.ty.bytes))) := by
  cases body with
  | none => exact .nil
  | some body =>
    simp only [Option.toList_some, List.flatMap_cons, List.flatMap_nil, List.append_nil] at *
    exact foldlM_visit_lie h hnd hcomps

end Items

/-- What an expression needs is there: its variables have places among the local variables, and its
call has room. -/
structure Fits (l : Layout) (depth : Nat) (x : Extent) (e : Expr) : Prop where
  locals : ∀ v ∈ e.locals, ∃ place, l.accesses[v.id]? = some (.relative place depth) ∧
    -x.locals.toInt ≤ place.toInt ∧ place.toInt + 8 ≤ 0
  room : e.room ≤ x.arguments.toInt

/-- What the finished layout says of the frame of a function: what its parts are, and that there is
room for every call in the body. -/
structure Sized (l : Layout) (around : List Head) (head : Head) (body : Option Expr) (f : Frame) :
    Prop where
  frame : l.frames[head.id]? = some f
  depth : f.depth = around.length
  size : f.size.toInt = f.locals.toInt + f.arguments.toInt + 16
  locals : f.locals.toInt =
    (((Item.function around head body).exprs.flatMap Expr.locals).map (·.ty.bytes)).sum
  arguments : 0 ≤ f.arguments.toInt
  room : ∀ e ∈ (Item.function around head body).exprs, e.room ≤ f.arguments.toInt

/-- What the finished layout says of a function: its frame has room for its variables and for the
arguments of its calls, and its parameters and variables have their places. -/
structure Furnished (l : Layout) (around : List Head) (head : Head) (body : Option Expr)
    (f : Frame) : Prop extends Sized l around head body f where
  nonneg : 0 ≤ f.locals.toInt
  params : ∀ q ∈ head.params, ∃ place, l.accesses[q.id]? = some (.relative place around.length) ∧
    8 ≤ place.toInt ∧ place.toInt ≤ head.bytes
  fits : ∀ e ∈ (Item.function around head body).exprs,
    Fits l around.length ⟨f.locals, f.arguments⟩ e

section Layout

variable {p : Program} {s s' : Session} {l : Layout}

/-- Items after one leave the places of its variables as they are. -/
theorem vars_kept (hp : p.Separate) {before after : List Item} {i : Item}
    (hsplit : p.items = before ++ i :: after) {l l' : Layout} {s s' : Session}
    (hafter : forM after item l s = .ok ((), l') s') :
    ∀ v ∈ i.vars, l'.accesses[v.1]? = l.accesses[v.1]? := by
  intro v hv
  have hall : v ∈ p.vars := List.mem_flatMap.mpr ⟨i, by simp [hsplit], hv⟩
  refine forM_item_fills (P := fun l₁ => l₁.accesses[v.1]? = l.accesses[v.1]?) (fun _ _ h => h) ?_
    hafter rfl
  intro j hj l₁ _ l₂ _ hfills hl₁
  rw [hfills.others, hl₁]
  · -- the numbers of later variables are others
    have hnd := hp.vars
    rw [Program.vars, hsplit, List.flatMap_append, List.flatMap_cons, List.map_append,
      List.map_append] at hnd
    obtain ⟨-, -, hdisj⟩ := List.nodup_append.mp (List.nodup_append.mp hnd).2.1
    intro depth? hmem
    obtain ⟨u, hu, heq⟩ := List.mem_map.mp (Item.var_mem_entries.mp hmem).1
    exact hdisj _ (List.mem_map_of_mem hv) _
      (List.mem_map_of_mem (List.mem_flatMap.mpr ⟨j, hj, hu⟩)) heq.symm
  · intro ty hty hc
    have hty' : ty ∈ p.types :=
      List.mem_flatMap.mpr ⟨j, by simp [hsplit, hj], Item.type_mem_entries.mp hty⟩
    exact hp.components _ (List.mem_flatMap.mpr ⟨ty, hty', hc⟩) (List.mem_map_of_mem hall)

theorem layout_addressed (h : p.layout s = .ok l s') (hp : p.Spaced) {v : Var}
    (hi : Item.var v ∈ p.items) : Addressed l.accesses v.id := by
  obtain ⟨before, after, l₁, s₁, l₂, s₂, hsplit, -, hown, hafter⟩ := layout_split h hi
  obtain ⟨_, n, -, -, -, rfl⟩ := decl_var_ok hown
  refine ⟨(s₁.names.named ("_" ++ v.name)).1, n, none, ?_⟩
  rw [vars_kept hp.toSeparate hsplit hafter (v.id, v.ty) List.mem_cons_self,
    Std.ExtTreeMap.getElem?_insert_self]

variable {around : List Head} {body : Option Expr}

/-- Every function of a program has a frame for what its body needs. -/
theorem layout_sized (h : p.layout s = .ok l s') (hids : (p.heads.map (·.id)).Nodup) {head : Head}
    (hi : Item.function around head body ∈ p.items) : ∃ f, Sized l around head body f := by
  obtain ⟨before, after, l₁, s₁, l₂, s₂, hsplit, -, hown, hafter⟩ := layout_split h hi
  have hframe := frame_kept hids hsplit hafter
  obtain ⟨label, _, l₃, _, l₄, _, x, l₅, _, frame, -, -, -, hx, hmake, -, rfl⟩ := function_ok hown
  obtain ⟨parts, size, hsum, hsize, rfl⟩ := make_ok hmake
  have hsumInt := Word.toInt_checkedAdd hsum
  have hsizeInt := Word.toInt_checkedAdd hsize
  have h16 : (16 : Word).toInt = 16 := rfl
  obtain ⟨htotal, harguments, hroom⟩ := extent_total hx
  refine ⟨⟨label, around.length, x.locals, x.arguments, size, _, _⟩,
    by rw [hframe, Std.ExtTreeMap.getElem?_insert_self], rfl, ?_, htotal, harguments, hroom⟩
  simp only
  omega

/-- The parameters of a function lie one after another above the frame pointer, and its variables
one below the other under it. -/
theorem layout_lie (h : p.layout s = .ok l s') (hp : p.Separate) {head : Head}
    (hi : Item.function around head body ∈ p.items) :
    List.Forall₂ (Lies l.accesses around.length) (head.params.map fun q => (q.id, q.ty))
        (Span.upFrom 8 (head.params.map (·.ty.bytes))) ∧
      List.Forall₂ (Lies l.accesses around.length)
        (((Item.function around head body).exprs.flatMap Expr.locals).map fun v => (v.id, v.ty))
        (Span.downFrom 0
          (((Item.function around head body).exprs.flatMap Expr.locals).map (·.ty.bytes))) := by
  obtain ⟨before, after, l₁, s₁, l₂, s₂, hsplit, -, hown, hafter⟩ := layout_split h hi
  have hkept := vars_kept hp hsplit hafter
  obtain ⟨label, _, l₃, _, l₄, _, x, l₅, _, frame, -, hparams, hret, hx, -, -, rfl⟩ :=
    function_ok hown
  -- what the program's variables and types have, those of this function have
  have hvars := hp.item_vars hi
  rw [Item.map_vars] at hvars
  obtain ⟨hndP, hndL, hdisj⟩ := List.nodup_append.mp hvars
  have hparam : ∀ q ∈ head.params, (q.id, q.ty) ∈ (Item.function around head body).vars :=
    fun q hq => List.mem_append_left _ (List.mem_map.mpr ⟨q, hq, rfl⟩)
  have hlocal : ∀ v ∈ (Item.function around head body).exprs.flatMap Expr.locals,
      (v.id, v.ty) ∈ (Item.function around head body).vars := by
    intro v hv
    obtain ⟨e, he, hv⟩ := List.mem_flatMap.mp hv
    exact List.mem_append_right _ (List.mem_flatMap.mpr ⟨e, he, List.mem_map.mpr ⟨v, hv, rfl⟩⟩)
  have htype : ∀ ty ∈ (Item.function around head body).exprs.flatMap Expr.types,
      ty ∈ (Item.function around head body).types := fun ty hty =>
    List.mem_append_right _ (List.mem_cons_of_mem _ hty)
  constructor
  · refine lie_congr (params_lie hparams hndP fun q hq q' hq' => hp.apart hi (hparam q hq)
      (List.mem_append_left _ (List.mem_map.mpr ⟨q', hq', rfl⟩))) fun v hv => ?_
    obtain ⟨q, hq, rfl⟩ := List.mem_map.mp hv
    -- neither the result nor the body gives a parameter another place
    rw [hkept _ (hparam q hq)]
    refine (((makes_place _).fills hret).append ((makes_extent _ _).fills hx)).others
      (fun depth? hmem => ?_) fun ty hty => hp.apart hi (hparam q hq)
        (List.mem_append_right _ (by simpa [Item.exprs] using hty))
    obtain ⟨e, he, hmem⟩ := List.mem_flatMap.mp ((List.mem_cons.mp hmem).resolve_left (by simp))
    obtain ⟨v, hv, heq⟩ := List.mem_map.mp (Expr.var_mem_entries.mp hmem).1
    exact hdisj _ (List.mem_map_of_mem hq) _
      (List.mem_map_of_mem (List.mem_flatMap.mpr ⟨e, he, hv⟩)) heq.symm
  · refine lie_congr (extent_lie hx hndL
      fun v hv ty hty => hp.apart hi (hlocal v hv) (htype ty hty)) fun v hv => ?_
    obtain ⟨u, hu, rfl⟩ := List.mem_map.mp hv
    exact hkept _ (hlocal u hu)

theorem layout_furnished (h : p.layout s = .ok l s') (hp : p.Spaced)
    (hids : (p.heads.map (·.id)).Nodup) {head : Head}
    (hi : Item.function around head body ∈ p.items) :
    ∃ f, Furnished l around head body f := by
  obtain ⟨f, hf⟩ := layout_sized h hids hi
  obtain ⟨hparams, hlocals⟩ := layout_lie h hp.toSeparate hi
  have hparam : ∀ q ∈ head.params, ∀ n, q.ty.size = .ok n → Word.size ≤ n := fun q hq =>
    hp.size hi (List.mem_append_left _ (List.mem_map.mpr ⟨q, hq, rfl⟩))
  have hlocal : ∀ v ∈ (Item.function around head body).exprs.flatMap Expr.locals,
      ∀ n, v.ty.size = .ok n → Word.size ≤ n := by
    intro v hv
    obtain ⟨e, he, hv⟩ := List.mem_flatMap.mp hv
    exact hp.size hi (v := (v.id, v.ty))
      (List.mem_append_right _ (List.mem_flatMap.mpr ⟨e, he, List.mem_map.mpr ⟨v, hv, rfl⟩⟩))
  refine ⟨f, hf, hf.locals ▸ Ty.sum_bytes_nonneg hlocal, fun q hq => ?_,
    fun e he => ⟨fun v hv => ?_, hf.room e he⟩⟩
  · obtain ⟨span, hspan, offset, n, hplace, hn, rfl⟩ :=
      exists_rel_of_mem hparams _ (List.mem_map_of_mem hq)
    have hbounds := Span.bounds_upFrom (List.forall_mem_map.mpr fun q hq =>
      Ty.bytes_nonneg_of_size (hparam q hq)) hspan
    have hn8 : (8 : Int) ≤ n.toInt := Int64.le_iff_toInt_le.mp (hparam q hq n hn)
    exact ⟨offset, hplace, hbounds.1, by unfold Head.bytes; simp only at hbounds; omega⟩
  · have hv : v ∈ (Item.function around head body).exprs.flatMap Expr.locals :=
      List.mem_flatMap.mpr ⟨e, he, hv⟩
    obtain ⟨span, hspan, offset, n, hplace, hn, rfl⟩ :=
      exists_rel_of_mem hlocals _ (List.mem_map_of_mem hv)
    have hbounds := Span.bounds_downFrom (List.forall_mem_map.mpr fun v hv =>
      Ty.bytes_nonneg_of_size (hlocal v hv)) hspan
    have hn8 : (8 : Int) ≤ n.toInt := Int64.le_iff_toInt_le.mp (hlocal v hv n hn)
    have htotal := hf.locals
    exact ⟨offset, hplace, by simp only at hbounds ⊢; omega, by simp only at hbounds; omega⟩

end Layout

end Layouting

end MmixBackend
