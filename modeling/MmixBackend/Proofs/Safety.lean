import MmixBackend.Proofs.Callees
import MmixBackend.Proofs.Compilation
import MmixBackend.Proofs.Data

/-!
# Compiled programs do not get stuck

A run of a compiled program never fails with a fault of the code: no label, temporary or datum is
missing, and control stays inside linear code.  What is left are faults that the program or its
limits are to blame for, and each is stated with its cause.

The argument has two halves.  A run ends as the direct evaluation of its entry function tells, and
the evaluation has no fault of the code because all data that trees name are placed.  And a step
that fails for want of a body stands at a call in the code of a function, so what it calls is the
label of a function's frame, and of one that has no body.
-/

namespace MmixBackend

open Typed Build Machine

/-! ## No fault of the code -/

/-- The run of a function has no fault of the code, however long it is and whatever its limit on
calls. -/
theorem Agree.not_ofCode {image : Image} {setting : Setting} {table : Table Label (Frame × Expr)}
    (h : Agree image setting table) (hs : setting.Complete) {body : Body} {frame : Frame} {e : Expr}
    (hcodes : body.Codes setting.layout setting.names frame e) (he : setting.Placed e.within)
    {fp : Word} {w : World} {callDepth n : Nat} {f : Fault}
    (hf : after image callDepth n (.running ⟨w, entered body fp 1, []⟩) = .faulted f) :
    ¬ f.OfCode := by
  rcases h.ends hcodes fp w n callDepth with ⟨-, k, hk⟩ | hend
  · cases after_unique hf hk (by simp) (by simp)
    exact id
  · cases hx : Evaluation.function setting n frame fp e w with
    | value r =>
      rw [hx] at hend
      obtain ⟨k, w', hk, -⟩ := hend
      cases after_unique hf hk (by simp) (by simp)
    | fault f' =>
      rw [hx] at hend
      obtain ⟨k, hk⟩ := hend
      cases after_unique hf hk (by simp) (by simp)
      exact Evaluation.safe_function hs n frame fp e he w f hx
    | unfinished =>
      rw [hx] at hend
      obtain ⟨s, hrun⟩ := hend
      rw [hf] at hrun
      cases hrun
    | meaningless =>
      rw [hx] at hend
      exact hend.elim

/-! ## Bodies -/

/-- Under a label is a body exactly when a function with a body has the label. -/
theorem Typed.Program.exists_bodies_iff {p : Program} {layout : Layout} {l : Label} :
    (∃ b, (p.bodies layout)[l]? = some b) ↔
      ∃ f ∈ p.functions, ∃ frame, layout.frames[f.1.id]? = some frame ∧ frame.label = l := by
  constructor
  · rintro ⟨⟨frame, e⟩, hb⟩
    rcases mem_enter hb with hnone | ⟨head, hf, hframe, hl⟩
    · simp at hnone
    · exact ⟨(head, e), hf, frame, hframe, hl⟩
  · -- what is entered stays, be it under another body
    have henter : ∀ (fs : List (Head × Expr)) (table : Table Label (Frame × Expr)),
        ((∃ b, table[l]? = some b) ∨
          ∃ f ∈ fs, ∃ frame, layout.frames[f.1.id]? = some frame ∧ frame.label = l) →
        ∃ b, (enter layout table fs)[l]? = some b := by
      intro fs
      induction fs with
      | nil =>
        rintro table (hl | ⟨f, hf, -⟩)
        · exact hl
        · cases hf
      | cons g fs ih =>
        intro table hl
        rw [enter, List.foldl_cons]
        refine ih _ ?_
        cases hg : layout.frames[g.1.id]? with
        | none =>
          refine hl.imp_right ?_
          rintro ⟨f, hf, frame, hframe, rfl⟩
          rcases List.mem_cons.mp hf with rfl | hf
          · rw [hg] at hframe
            cases hframe
          · exact ⟨f, hf, frame, hframe, rfl⟩
        | some frame =>
          by_cases hlabel : frame.label = l
          · exact Or.inl ⟨(frame, g.2), hlabel ▸ Std.ExtTreeMap.getElem?_insert_self⟩
          · refine hl.imp ?_ ?_
            · rintro ⟨b, hb⟩
              exact ⟨b, (Table.getElem?_insert_of_ne hlabel).trans hb⟩
            · rintro ⟨f, hf, frame', hframe, hl⟩
              rcases List.mem_cons.mp hf with rfl | hf
              · rw [hg] at hframe
                cases hframe
                exact absurd hl hlabel
              · exact ⟨f, hf, frame', hframe, hl⟩
    intro hl
    exact henter p.functions ∅ (Or.inr hl)

/-- The machine has a body under a label exactly when the program does. -/
theorem Linked.none_iff {layout : Layout} {names : Names} {bodies : Table Label Body}
    {table : Table Label (Frame × Expr)} (h : Linked layout names bodies table) (l : Label) :
    bodies[l]? = none ↔ ¬ ∃ b, table[l]? = some b := by
  rcases h l with ⟨hnone, htable⟩ | ⟨body, frame, e, hbody, htable, -⟩
  · simp [hnone, htable]
  · simp [hbody, htable]

/-- What the machine loads are the chunks of the program. -/
theorem mem_of_loadedBodies {chunks : Chunks} {l : Label} {b : Body}
    (h : (loadedBodies chunks)[l]? = some b) : ∃ c ∈ chunks.code, b = Body.ofChunk c := by
  have hfold : ∀ (cs : List CodeChunk) (t : Table Label Body),
      (cs.foldl (fun t c => t.insert c.frame.label (Body.ofChunk c)) t)[l]? = some b →
      t[l]? = some b ∨ ∃ c ∈ cs, b = Body.ofChunk c := by
    intro cs
    induction cs with
    | nil => exact fun t ht => Or.inl ht
    | cons c cs ih =>
      intro t ht
      rcases ih _ ht with ht | ⟨c', hc', hb⟩
      · rcases Table.of_getElem?_insert ht with ⟨-, rfl⟩ | ⟨-, ht⟩
        · exact Or.inr ⟨c, List.mem_cons_self, rfl⟩
        · exact Or.inl ht
      · exact Or.inr ⟨c', List.mem_cons_of_mem _ hc', hb⟩
  rcases hfold chunks.code ∅ h with hnone | hc
  · simp at hnone
  · exact hc

/-- The code of a compiled program calls frames of functions, and allocation and release. -/
theorem Typed.Program.compile_callees {p : Program} {s₀ s : Session} {c : Compiled}
    (h : p.compile s₀ = .ok c s) (hids : (Lowering.ids (Decl.listThroughout p.decls)).Nodup)
    {l : Label} {b : Body} (hb : (loadedBodies c.chunks)[l]? = some b) :
    ∀ l' ∈ Ir.Stmt.listCallees b.code.toList, Lowering.Callable c.layout s.names l' := by
  obtain ⟨s₁, s₂, -, hlower, hchunks⟩ := Program.compile_ok h
  have hof := Program.chunksOf hchunks
  obtain ⟨chunk, hchunk, rfl⟩ := mem_of_loadedBodies hb
  obtain ⟨i, hi, rfl⟩ := List.getElem_of_mem hchunk
  have hlen := hof.code.length_eq
  obtain ⟨r, r', hbuild, -, -⟩ := hof.code.get hi (hlen ▸ hi)
  have hbodies := ((Lowering.functions_lowers hlower).fills hids).bodies
  have hbody := (hbodies _ (List.getElem_mem (hlen ▸ hi))).1
  show ∀ l' ∈ Ir.Stmt.listCallees (c.chunks.code[i].stmts.toArray.toList), _
  rw [List.toList_toArray]
  exact CodeChunk.callees_build hbuild hbody hof.names

/-! ## Whole runs -/

/-- The run from an entry function comes to a call of a label. -/
def Machine.Calls (settings : Settings) (names : Names) (chunks : Chunks) (entry : String)
    (input : List UInt8) (l : Label) : Prop :=
  ∃ image start k s, initial names chunks entry input = .ok (image, start) ∧
    k < settings.stepLimit ∧ after image settings.callDepth k (.running start) = .running s ∧
    s.AtCall l

/-- What a run that failed ended with, when it did not end at its step limit. -/
theorem Machine.conclude_error {n : Nat} {q : Progress} {f : Fault} (h : conclude n q = .error f) :
    f = .stepLimit n ∨ q = .faulted f ∨
      ∃ s, q = .running s ∧ s.top.current? = none ∧ f = .malformed s.top.name .fellOff := by
  cases q with
  | running s =>
    rw [conclude] at h
    split at h
    · next hnone =>
      cases h
      exact Or.inr (Or.inr ⟨s, rfl, hnone, rfl⟩)
    · cases h
      exact Or.inl rfl
  | halted exit w => cases h
  | faulted f' =>
    cases h
    exact Or.inr (Or.inl rfl)

namespace Typed.Program

variable {p : Program} {s₀ s : Session} {c : Compiled}

/-- A function that is declared without a body. -/
def Foreign (p : Program) (head : Head) : Prop :=
  head ∈ p.heads ∧ ∀ f ∈ p.functions, f.1.id ≠ head.id

section Compiled

variable (h : p.compile s₀ = .ok c s) (hids : (Lowering.ids (Decl.listThroughout p.decls)).Nodup)

include h hids

/-- A run that does not start: its data or its first frame do not fit, or there is no body under
the label of its entry. -/
theorem initial_error {entry : String} {input : List UInt8} {f : Fault}
    (hf : initial s.names c.chunks entry input = .error f) :
    (∃ cause, f = .overflow cause) ∨
      f = .missingEntry entry ∧ ∀ g ∈ p.functions, ∀ frame : Frame,
        c.layout.frames[g.1.id]? = some frame → s.names.lookup entry ≠ some frame.label := by
  have hlinked := compile_linked h hids
  rw [initial_eq] at hf
  split at hf
  · cases hf
    exact Or.inl ⟨_, rfl⟩
  · split at hf
    · next hnone =>
      cases hf
      refine Or.inr ⟨rfl, fun g hg frame hframe hl => ?_⟩
      rw [hl] at hnone
      exact (hlinked.none_iff _).mp hnone (exists_bodies_iff.mpr ⟨g, hg, frame, hframe, rfl⟩)
    · split at hf
      · cases hf
        exact Or.inl ⟨_, rfl⟩
      · cases hf

/-- What a run that starts has: the bodies of the program, and no fault of the code ahead. -/
theorem initial_ok {entry : String} {input : List UInt8} {image : Image} {start : State}
    (hstart : initial s.names c.chunks entry input = .ok (image, start)) :
    image.names = s.names ∧ image.bodies = loadedBodies c.chunks ∧
      start.All (fun b => ∃ l : Label, image.bodies[l]? = some b) ∧
      ∀ {callDepth n : Nat} {f : Fault},
        after image callDepth n (.running start) = .faulted f → ¬ f.OfCode := by
  obtain ⟨s₁, s₂, hlayout, -, hchunks⟩ := compile_ok h
  have hlinked := compile_linked h hids
  rw [initial_eq, (chunksOf hchunks).data] at hstart
  split at hstart
  · cases hstart
  · next data m hplace =>
    split at hstart
    · cases hstart
    · next body hentry =>
      split at hstart
      · cases hstart
      · cases hstart
        obtain ⟨l, -, hbody⟩ := Option.bind_eq_some_iff.mp hentry
        refine ⟨rfl, rfl, ⟨⟨l, hbody⟩, by simp⟩, fun {callDepth n f} hf => ?_⟩
        rcases hlinked l with ⟨hnone, -⟩ | ⟨body', frame, e, hbody', htable, hcodes⟩
        · rw [hbody] at hnone
          cases hnone
        · obtain rfl := Option.some.inj (hbody.symm.trans hbody')
          have hagree : Agree { names := s.names, bodies := loadedBodies c.chunks, data }
              { names := s.names, layout := c.layout, data,
                linkage := p.byLabel s.names c.layout } (p.bodies c.layout) :=
            ⟨rfl, rfl, hlinked, byLabel_resolves p s.names c.layout⟩
          exact hagree.not_ofCode (complete hlayout hplace s.names) hcodes
            (placed_of_bodies hplace s.names _ htable) hf

/-- A call that finds no body and is not provided is one of a function without a body. -/
theorem foreign_of_callable {l : Label} (hl : Lowering.Callable c.layout s.names l)
    (hnone : (loadedBodies c.chunks)[l]? = none) (hname : s.names.textOf l ∉ provided) :
    ∃ head frame, p.Foreign head ∧ c.layout.frames[head.id]? = some frame ∧ frame.label = l := by
  rcases hl with ⟨d, frame, hframe, rfl⟩ | ⟨op, hop⟩
  · obtain ⟨s₁, s₂, hlayout, -, -⟩ := compile_ok h
    obtain ⟨_, head, _, hitem, rfl, -⟩ := Layouting.layout_framed hlayout hframe
    have hhead : head ∈ p.heads := by
      rw [← Program.filterMap_items]
      exact List.mem_filterMap.mpr ⟨_, hitem, rfl⟩
    refine ⟨head, frame, ⟨hhead, fun f hf hid => ?_⟩, hframe, rfl⟩
    have hno := ((compile_linked h hids).none_iff _).mp hnone
    exact hno (exists_bodies_iff.mpr ⟨f, hf, frame, hid ▸ hframe, rfl⟩)
  · refine absurd ?_ hname
    rw [Names.textOf_of_lookup hop]
    cases op <;> simp [Lowering.runtimeName, provided]

end Compiled

/-- A run of a compiled program fails with an overflow, because its entry has no body, at a limit,
or at a call of a function without a body that the machine does not provide: never with a fault of
the code. -/
theorem run_error (hids : (Lowering.ids (Decl.listThroughout p.decls)).Nodup)
    (h : p.compile s₀ = .ok c s) (settings : Settings) (entry : String) (input : List UInt8)
    {f : Fault} (hf : Machine.run settings s.names c.chunks entry input = .error f) :
    (∃ cause, f = .overflow cause) ∨
    (f = .missingEntry entry ∧ ∀ g ∈ p.functions, ∀ frame : Frame,
      c.layout.frames[g.1.id]? = some frame → s.names.lookup entry ≠ some frame.label) ∨
    f = .stepLimit settings.stepLimit ∨
    f = .callDepth settings.callDepth ∨
    ∃ head frame, p.Foreign head ∧ c.layout.frames[head.id]? = some frame ∧
      Calls settings s.names c.chunks entry input frame.label ∧
      s.names.textOf frame.label ∉ provided ∧
      f = .unknownFunction (s.names.textOf frame.label) := by
  rw [run_eq] at hf
  rcases bind_error hf with hinit | ⟨⟨image, start⟩, hinit, hf⟩
  · exact (initial_error h hids hinit).imp_right Or.inl
  · obtain ⟨hnames, hbodies, hall, hsafe⟩ := initial_ok h hids hinit
    rcases conclude_error hf with rfl | hfault | ⟨s', hrun, hnone, rfl⟩
    · exact Or.inr (Or.inr (Or.inl rfl))
    · obtain ⟨k, s', hk, hrun, hadv⟩ := exists_advance_of_after hfault
      rcases advance_error hadv with hcode | hover | hdepth | ⟨l, hcall, hnone, rfl, hname⟩
      · exact absurd hcode (hsafe hfault)
      · exact Or.inl hover
      · exact Or.inr (Or.inr (Or.inr (Or.inl hdepth)))
      · -- the call stands in the code of a loaded function
        obtain ⟨⟨l', hbody⟩, -⟩ := hall.after (fun l' b hb => ⟨l', hb⟩) hrun
        rw [hbodies] at hnone hbody
        rw [hnames] at hname ⊢
        have hl : Lowering.Callable c.layout s.names l := by
          obtain ⟨st, call, hst, hin, rfl⟩ := hcall
          refine compile_callees h hids hbody _ (Ir.Stmt.mem_listCallees.mpr ⟨st, ?_, ?_⟩)
          · exact Array.mem_toList_iff.mpr (Array.mem_of_getElem? hst)
          · exact Call.callee_mem hin
        obtain ⟨head, frame, hforeign, hframe, rfl⟩ := foreign_of_callable h hids hl hnone hname
        exact Or.inr (Or.inr (Or.inr (Or.inr ⟨head, frame, hforeign, hframe,
          ⟨image, start, k, s', hinit, hk, hrun, hcall⟩, hname, rfl⟩)))
    · -- one more step would be a fault of the code
      have hnext : after image settings.callDepth (settings.stepLimit + 1) (.running start) =
          .faulted (.malformed s'.top.name .fellOff) := by
        rw [after_add, hrun, after_succ, advance, hnone]
        rfl
      exact absurd trivial (hsafe hnext)

end Typed.Program

/-- A program that calls a function of another program. -/
def reliant : Program where
  decls := [
    .foreign ⟨⟨0⟩, "exp", [⟨⟨1⟩, "n", .int⟩], .int, {}⟩,
    .fn ⟨⟨2⟩, "main", [], .int, {}⟩ (.call (.value 1) ⟨0⟩ [.atom (.value 0) (.int 10)])]

theorem run_error_reliant :
    (Lowering.ids (Decl.listThroughout reliant.decls)).Nodup ∧
      ∃ c s, reliant.compile {} = .ok c s ∧
        Machine.run {} s.names c.chunks "_main" [] = .error (.unknownFunction "_exp") ∧
        ∃ head frame, reliant.Foreign head ∧ c.layout.frames[head.id]? = some frame ∧
          Calls {} s.names c.chunks "_main" [] frame.label ∧
          s.names.textOf frame.label = "_exp" := by
  have hids : (Lowering.ids (Decl.listThroughout reliant.decls)).Nodup := by decide
  have hruns : ∃ c s, reliant.compile {} = .ok c s ∧
      Machine.run {} s.names c.chunks "_main" [] = .error (.unknownFunction "_exp") := by
    decide +kernel
  obtain ⟨c, s, hc, hrun⟩ := hruns
  refine ⟨hids, c, s, hc, hrun, ?_⟩
  rcases Program.run_error hids hc {} "_main" [] hrun with
    ⟨_, hf⟩ | ⟨hf, -⟩ | hf | hf | ⟨head, frame, hforeign, hframe, hcalls, -, hf⟩
  · cases hf
  · cases hf
  · cases hf
  · cases hf
  · exact ⟨head, frame, hforeign, hframe, hcalls, (Fault.unknownFunction.inj hf).symm⟩

end MmixBackend
