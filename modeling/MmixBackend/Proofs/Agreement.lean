import MmixBackend.Proofs.Outgoing
import MmixBackend.Proofs.Records

/-!
# Where callers and callees meet

Where parameters, local variables and components lie is decided once, while the program is laid
out.  Where a caller stores its arguments is computed again for every call, from the sizes of the
arguments alone.  With different numbers for different declarations and no negative lengths, a
layout leaves no gaps and no overlaps, and a caller stores its arguments where the callee looks for
its parameters.
-/

namespace MmixBackend

open Typed Build

/-- Declarations have numbers of their own, and a component is one of a single record. -/
structure Typed.Program.Identified (p : Program) : Prop extends p.Numbered where
  records : Coherent p.records

theorem Typed.Program.Identified.distinct {p : Program} (hp : p.Identified) : p.Distinct where
  toNumbered := hp.toNumbered
  records := by
    intro cs hcs cs' hcs' d hd hd'
    rw [hp.records.same cs hcs cs' hcs' d hd hd']

/-- What a layout of a program says of where things lie. -/
structure Agreement (p : Program) (l : Layout) : Prop where
  /-- Parameters lie one after another from offset 8, at the depth of their function. -/
  params : ∀ {around : List Head} {head : Head} {body : Option Expr},
    Item.function around head body ∈ p.items →
    List.Forall₂ (Lies l.accesses around.length) (head.params.map fun q => (q.id, q.ty))
        (Span.upFrom 8 (head.params.map (·.ty.bytes))) ∧
      Span.Tile 8 (8 + head.bytes) (Span.upFrom 8 (head.params.map (·.ty.bytes)))
  /-- The variables of a body tile what its frame has for them, below the frame pointer. -/
  locals : ∀ {around : List Head} {head : Head} {body : Option Expr},
    Item.function around head body ∈ p.items →
    ∃ f spans, l.frames[head.id]? = some f ∧
      List.Forall₂ (Lies l.accesses around.length)
        (((Item.function around head body).exprs.flatMap Expr.locals).map fun v => (v.id, v.ty))
        spans ∧
      Span.Tile (-f.locals.toInt) 0 spans
  /-- The components of a record tile it. -/
  records : ∀ {cs : List Component}, cs ∈ p.records →
    ∃ n spans, (Ty.record cs).size = .ok n ∧
      List.Forall₂ (Lies l.accesses 0) (cs.map fun c => (c.id, c.ty)) spans ∧
      Span.Tile 0 n.toInt spans
  /-- A call with arguments of the sizes of the parameters stores them where the parameters lie,
  behind the static link. -/
  calls : ∀ {around : List Head} {head : Head} {body : Option Expr},
    Item.function around head body ∈ p.items →
    ∀ {frame : Option Frame} {node : Node} {args : List Expr} {t t' : Lowered} {s s' : Session}
      {ir : Ir.Expr}, Lowering.expr ⟨l, frame⟩ (.call node head.id args) t s = .ok (ir, t') s' →
    args.map (·.ty.size) = head.params.map (·.ty.size) →
    ∃ label link offsets values, ir = .call label (0 :: offsets) (link :: values) ∧
      List.Forall₂ (fun q o => l.accesses[q.id]? = some (.relative o around.length)) head.params
        offsets

theorem Lies.offsets {places : Table DeclId Access} {depth : Nat} {vs : List (DeclId × Ty)}
    {spans : List Span} (h : List.Forall₂ (Lies places depth) vs spans) :
    ∀ {offsets : List Word}, offsets.map Int64.toInt = spans.map (·.start) →
      List.Forall₂ (fun v o => places[v.1]? = some (.relative o depth)) vs offsets := by
  induction h with
  | nil =>
    intro offsets heq
    rw [List.map_nil, List.map_eq_nil_iff] at heq
    rw [heq]
    exact .nil
  | cons hv _ ih =>
    intro offsets heq
    obtain ⟨o, offsets, rfl, ho, hrest⟩ := List.map_eq_cons_iff.mp heq
    obtain ⟨offset, n, hplace, -, rfl⟩ := hv
    obtain rfl := Int64.toInt_inj.mp ho
    exact .cons hplace (ih hrest)

namespace Typed

mutual

theorem Ty.Counted.record {cs : List Component} :
    ∀ {ty : Ty}, ty.Counted → cs ∈ ty.records → ∀ c ∈ cs, c.ty.Counted
  | .ptr target, hc, h => by
    rw [Ty.records] at h
    exact Ty.Counted.record (show target.Counted from hc) h
  | .array elem _, hc, h => by
    rw [Ty.records] at h
    exact Ty.Counted.record hc.2 h
  | .record comps, hc, h => by
    rw [Ty.records, List.mem_cons] at h
    rcases h with rfl | h
    · exact Component.AllCounted.mem hc
    · exact Component.AllCounted.record hc h
  | .void, _, h | .char, _, h | .int, _, h | .bool, _, h => by
    rw [Ty.records] at h
    cases h

theorem Component.AllCounted.record {cs : List Component} :
    ∀ {comps : List Component}, Component.AllCounted comps → cs ∈ Component.listRecords comps →
      ∀ c ∈ cs, c.ty.Counted
  | [], _, h => by cases h
  | ⟨_, _, ty⟩ :: comps, hc, h => by
    rw [Component.listRecords, List.mem_append] at h
    rcases h with h | h
    · exact Ty.Counted.record hc.1 h
    · exact Component.AllCounted.record hc.2 h

theorem Component.AllCounted.mem :
    ∀ {comps : List Component}, Component.AllCounted comps → ∀ c ∈ comps, c.ty.Counted
  | [], _, _, h => by cases h
  | ⟨_, _, ty⟩ :: comps, hc, c, h => by
    rcases List.mem_cons.mp h with rfl | h
    · exact hc.1
    · exact Component.AllCounted.mem hc.2 c h

end

end Typed

namespace Layouting

variable {p : Program} {s s' : Session} {l : Layout} {around : List Head} {head : Head}
  {body : Option Expr}

theorem bytes_nonneg {α : Type} {f : α → Ty} {as : List α} (h : ∀ a ∈ as, (f a).Counted) :
    ∀ n ∈ as.map fun a => (f a).bytes, 0 ≤ n := by
  intro n hn
  obtain ⟨a, ha, rfl⟩ := List.mem_map.mp hn
  exact (h a ha).bytes_nonneg

theorem params_tile (h : p.layout s = .ok l s') (hp : p.Identified)
    (hc : ∀ ty ∈ p.types, ty.Counted) (hi : Item.function around head body ∈ p.items) :
    List.Forall₂ (Lies l.accesses around.length) (head.params.map fun q => (q.id, q.ty))
        (Span.upFrom 8 (head.params.map (·.ty.bytes))) ∧
      Span.Tile 8 (8 + head.bytes) (Span.upFrom 8 (head.params.map (·.ty.bytes))) := by
  refine ⟨(layout_lie h hp.toSeparate hi).1, Span.tile_upFrom (bytes_nonneg fun q hq => ?_) 8⟩
  refine hc _ (List.mem_flatMap.mpr ⟨_, hi, ?_⟩)
  exact List.mem_append_left _ (List.mem_map_of_mem hq)

theorem locals_tile (h : p.layout s = .ok l s') (hp : p.Identified)
    (hc : ∀ ty ∈ p.types, ty.Counted) (hi : Item.function around head body ∈ p.items) :
    ∃ f spans, l.frames[head.id]? = some f ∧
      List.Forall₂ (Lies l.accesses around.length)
        (((Item.function around head body).exprs.flatMap Expr.locals).map fun v => (v.id, v.ty))
        spans ∧
      Span.Tile (-f.locals.toInt) 0 spans := by
  obtain ⟨f, hf⟩ := layout_sized h hp.functions hi
  refine ⟨f, _, hf.frame, (layout_lie h hp.toSeparate hi).2, ?_⟩
  rw [hf.locals, ← Int.zero_sub]
  refine Span.tile_downFrom (bytes_nonneg fun v hv => ?_) 0
  obtain ⟨e, he, hv⟩ := List.mem_flatMap.mp hv
  refine hc _ (List.mem_flatMap.mpr ⟨_, hi, List.mem_append_right _ (List.mem_cons_of_mem _ ?_)⟩)
  exact List.mem_flatMap.mpr ⟨e, he, local_ty_mem_types hv⟩

theorem records_tile (h : p.layout s = .ok l s') (hp : p.Identified)
    (hc : ∀ ty ∈ p.types, ty.Counted) {cs : List Component} (hcs : cs ∈ p.records) :
    ∃ n spans, (Ty.record cs).size = .ok n ∧
      List.Forall₂ (Lies l.accesses 0) (cs.map fun c => (c.id, c.ty)) spans ∧
      Span.Tile 0 n.toInt spans := by
  obtain ⟨hlie, n, hn⟩ := layout_laidOut h hp.toSeparate hp.records cs hcs
  refine ⟨n, _, hn, hlie, ?_⟩
  rw [Component.toInt_sizes hn]
  obtain ⟨ty, hty, hcs⟩ := List.mem_flatMap.mp hcs
  exact Span.tile_upFrom (bytes_nonneg ((hc ty hty).record hcs)) 0

/-- A call stores arguments of the sizes of the parameters where the parameters lie. -/
theorem call_offsets (h : p.layout s = .ok l s') (hp : p.Separate)
    (hi : Item.function around head body ∈ p.items) {frame : Option Frame} {node : Node}
    {args : List Expr} {t t' : Lowered} {s₁ s₂ : Session} {ir : Ir.Expr}
    (hlower : Lowering.expr ⟨l, frame⟩ (.call node head.id args) t s₁ = .ok (ir, t') s₂)
    (hsizes : args.map (·.ty.size) = head.params.map (·.ty.size)) :
    ∃ label link offsets values, ir = .call label (0 :: offsets) (link :: values) ∧
      List.Forall₂ (fun q o => l.accesses[q.id]? = some (.relative o around.length)) head.params
        offsets := by
  obtain ⟨-, hcode⟩ := Lowering.expr_lowers hlower
  cases hcode with
  | call _ _ _ hargs =>
    refine ⟨_, _, _, _, rfl, ?_⟩
    have hstarts := hargs.starts
    rw [Ty.map_bytes_congr hsizes] at hstarts
    exact List.forall₂_map_left_iff.mp (Lies.offsets (layout_lie h hp hi).1 hstarts)
  | leaf hleaf => cases hleaf
  | wrap hwrap => cases hwrap
  | join hjoin => cases hjoin

end Layouting

namespace Typed.Program

variable {p : Program}

/-- Laying out a program stops only at words out of range.  Otherwise parameters, variables and
components lie in stretches without gaps and overlaps, and callers store arguments where callees
have their parameters. -/
theorem layout_agrees (hp : p.Identified) (hc : ∀ ty ∈ p.types, ty.Counted) (s : Session) :
    (∃ cause s', p.layout s = .error (.overflow cause) s') ∨
      ∃ l s', p.layout s = .ok l s' ∧ Agreement p l := by
  cases h : p.layout s with
  | error e s' =>
    refine Or.inl ?_
    have hdenies := (Layouting.layout_recorded hp.distinct).error h
    cases e with
    | overflow cause => exact ⟨cause, s', rfl⟩
    | internal => exact absurd trivial hdenies.1
    | exhausted | config | missingEntry => cases hdenies
  | ok l s' =>
    refine Or.inr ⟨l, s', rfl, ?_⟩
    exact
      { params := fun hi => Layouting.params_tile h hp hc hi
        locals := fun hi => Layouting.locals_tile h hp hc hi
        records := fun hcs => Layouting.records_tile h hp hc hcs
        calls := fun hi => Layouting.call_offsets h hp.toSeparate hi }

def point : List Component := [⟨⟨10⟩, "x", .int⟩, ⟨⟨11⟩, "y", .array .int 2⟩]

/-- A record in which another is twice, once behind a pointer. -/
def segment : List Component := [⟨⟨12⟩, "from", .record point⟩, ⟨⟨13⟩, "to", .ptr (.record point)⟩]

def sketchingArgs : List Expr :=
  [.name ⟨⟨2⟩, .record segment, true, {}⟩ ⟨1⟩, .atom (.value 3) (.int 1)]

def sketchingHead : Head :=
  ⟨⟨2⟩, "g", [⟨⟨3⟩, "s", .record segment⟩, ⟨⟨4⟩, "n", .int⟩], .int, {}⟩

/-- `g(a, 1)` for a record `a` and a function `g` in `main`. -/
def sketching : Program where
  decls := [.fn ⟨⟨0⟩, "main", [], .int, {}⟩ (.scope (.value 0)
    (.call (.value 1) ⟨2⟩ sketchingArgs)
    [.var ⟨⟨1⟩, "a", .record segment, {}⟩,
      .fn sketchingHead
        (.scope (.value 4) (.name (.place 5) ⟨4⟩)
          [.var ⟨⟨5⟩, "b", .array (.record point) 3, {}⟩, .var ⟨⟨6⟩, "c", .int, {}⟩])])]

/-- The call stores its arguments at 8 and 40, so there the parameters lie. -/
theorem layout_agrees_sketching :
    sketching.Identified ∧ (∀ ty ∈ sketching.types, ty.Counted) ∧
      ∃ l s, sketching.layout {} = .ok l s ∧ Agreement sketching l ∧
        l.accesses[(⟨3⟩ : DeclId)]? = some (.relative 8 1) ∧
        l.accesses[(⟨4⟩ : DeclId)]? = some (.relative 40 1) := by
  have hrecords : ∀ cs ∈ sketching.records, cs = segment ∨ cs = point := by
    have heq : sketching.records = [segment, point, point, segment, point, point, segment, point,
      point, point] := rfl
    simp [heq]
  have hapart : ∀ d ∈ segment.map (·.id), d ∉ point.map (·.id) := by decide
  have hp : sketching.Identified := by
    refine ⟨⟨⟨by decide, by decide⟩, by decide⟩, fun cs hcs cs' hcs' d hd hd' => ?_, fun cs hcs => ?_⟩
    · rcases hrecords cs hcs with rfl | rfl <;> rcases hrecords cs' hcs' with rfl | rfl
      · rfl
      · exact absurd hd' (hapart d hd)
      · exact absurd hd (hapart d hd')
      · rfl
    · rcases hrecords cs hcs with rfl | rfl <;> decide
  have hc : ∀ ty ∈ sketching.types, ty.Counted := by decide
  have hrun : ∃ l s, sketching.layout {} = .ok l s ∧
      decide (∃ r s', Lowering.expr ⟨l, l.frames[(⟨0⟩ : DeclId)]?⟩
          (.call ⟨⟨1⟩, .int, false, {}⟩ sketchingHead.id sketchingArgs) {} s = .ok r s' ∧
        r.1.outgoing = [[0, 8, 40]]) := by
    decide +kernel
  obtain ⟨l, s, hl, hrun⟩ := hrun
  obtain ⟨⟨ir, t'⟩, s', hlower, houtgoing⟩ := of_decide_eq_true hrun
  have hagrees : Agreement sketching l := by
    obtain ⟨cause, _, herror⟩ | ⟨_, _, hok, hagrees⟩ := layout_agrees hp hc {}
    · cases hl.symm.trans herror
    · cases hl.symm.trans hok
      exact hagrees
  refine ⟨hp, hc, l, s, hl, hagrees, ?_⟩
  have hi : Item.function [⟨⟨0⟩, "main", [], .int, {}⟩] sketchingHead _ ∈ sketching.items :=
    .tail _ (.head _)
  obtain ⟨label, link, offsets, values, rfl, hoffsets⟩ := hagrees.calls hi hlower rfl
  obtain ⟨rfl, -⟩ : offsets = [8, 40] ∧ _ := by
    simpa [Ir.Expr.outgoing] using houtgoing
  cases hoffsets with
  | cons hfirst hrest =>
    cases hrest with
    | cons hsecond _ => exact ⟨hfirst, hsecond⟩

end Typed.Program

end MmixBackend
