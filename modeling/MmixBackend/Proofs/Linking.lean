import Mathlib.Data.List.Forall2
import MmixBackend.Proofs.Layout
import MmixBackend.Proofs.Translation

/-!
# Functions and their bodies

The code chunks of a program go in lockstep with its functions.  So the machine finds under a
label the code of the function that the program has under that label, and the code of a function
is that of its body: it starts at its label, moves the value of the body into the temporary of
the result, and leaves.

From this, by induction on the fuel, the run of every function does what the direct evaluation
of its body does.
-/

namespace MmixBackend

open Typed Build Machine

/-! ## The chunk of a function -/

/-- The session after two labels were drawn. -/
abbrev Session.marked (s : Session) : Session := { s with names := s.names.newLabel.2.newLabel.2 }

variable {body : Expr} {c : CodeChunk} {head : Head} {s s' : Session}
  {table : Table Label (Frame × Expr)}

theorem CodeChunk.build_ok {layout : Layout} {code : Lowered}
    (h : CodeChunk.build layout code head body s = .ok c s') :
    ∃ value flat s₁, layout.frames[head.id]? = some c.frame ∧
      code.exprs[body.id]? = some value ∧
      (Ir.Stmt.move (.temp c.frame.rv) value).canonize head.loc s.marked = .ok flat s₁ ∧
      Linearizes s₁.names (.label c.entry :: flat ++ [.jump c.exit]) c.stmts s'.names ∧
      c.entry = ⟨s.names.labels.size⟩ ∧ c.exit = ⟨s.names.labels.size + 1⟩ ∧
      c.name = head.name ∧ c.loc = head.loc := by
  unfold CodeChunk.build at h
  cases hf : layout.frames[head.id]? with
  | none => simp only [hf, bind_ok, defect_ok, false_and, exists_false] at h
  | some frame =>
    cases hv : code.exprs[body.id]? with
    | none =>
      simp only [hf, hv, bind_ok, pure_ok, defect_ok, false_and, and_false, exists_false] at h
    | some value =>
      simp only [hf, hv, bind_ok, pure_ok, newLabel_ok, note_ok] at h
      obtain ⟨_, _, ⟨rfl, rfl⟩, _, _, ⟨rfl, rfl⟩, _, _, ⟨rfl, rfl⟩, _, _, ⟨rfl, rfl⟩, flat, s₁,
        hflat, stmts, s₂, hstmts, _, _, rfl, rfl, rfl⟩ := h
      have hlin := linearizes hstmts
      exact ⟨_, flat, s₁, rfl, rfl, hflat, hlin, rfl, by simp, rfl, rfl⟩

/-- The labels that the code of a chunk stands under, its frame's apart. -/
def CodeChunk.labels (c : CodeChunk) : List Label := Ir.Stmt.listLabels c.stmts ++ [c.exit]

/-- A chunk has the labels of its function's body, an entry, an exit and labels to fall through
to. -/
theorem CodeChunk.build_supplies {layout : Layout} {code : Lowered} {value : Ir.Expr}
    (h : CodeChunk.build layout code head body s = .ok c s')
    (hvalue : code.exprs[body.id]? = some value) :
    ∃ fresh, s.names.Supplies s'.names fresh ∧ c.labels.Perm (value.labels ++ fresh) := by
  obtain ⟨_, flat, s₁, -, hv, hflat, hstmts, hentry, hexit, -⟩ := CodeChunk.build_ok h
  cases hv.symm.trans hvalue
  obtain ⟨fresh, hfresh, hperm⟩ := hstmts.supplies
  have hmarks := (Names.supplies_newLabel s.names).append (Names.supplies_newLabel _)
  have hall := (hmarks.mono (Ir.Stmt.canonizes hflat).le).append hfresh
  refine ⟨_, hall, List.perm_iff_count.mpr fun l => ?_⟩
  have hown : Ir.Stmt.listLabels flat = value.labels := by
    simpa [Ir.Stmt.labels, Ir.Expr.labels] using Ir.Stmt.labels_canonize hflat
  have hcount := hperm.count_eq l
  simp only [CodeChunk.labels, hentry, hexit, Ir.Stmt.listLabels, Ir.Stmt.listLabels_append, hown,
    Ir.Stmt.labels, Names.newLabel_labels, Array.size_push, List.count_append, List.count_cons,
    List.count_nil, List.cons_append] at hcount ⊢
  omega

/-- The chunks of functions have the labels of the bodies, and for each function an entry, an exit
and labels to fall through to. -/
theorem build_all_supplies {layout : Layout} {code : Lowered} {fs : List (Head × Expr)} :
    ∀ {s s' : Session} {cs : List CodeChunk},
      fs.mapM (fun f => CodeChunk.build layout code f.1 f.2) s = .ok cs s' →
      ∃ fresh, s.names.Supplies s'.names fresh ∧
        (cs.flatMap (·.labels)).Perm (Lowering.bodyLabels code fs ++ fresh) := by
  induction fs with
  | nil =>
    intro s s' cs h
    obtain ⟨rfl, rfl⟩ := pure_ok.mp h
    exact ⟨[], Names.supplies_nil (Names.le_refl _), List.Perm.refl _⟩
  | cons f fs ih =>
    intro s s' cs h
    rw [List.mapM_cons] at h
    obtain ⟨c, s₁, hc, h⟩ := bind_ok.mp h
    obtain ⟨cs', s₂, hcs, h⟩ := bind_ok.mp h
    obtain ⟨rfl, rfl⟩ := pure_ok.mp h
    obtain ⟨value, _, _, -, hv, -⟩ := CodeChunk.build_ok hc
    obtain ⟨own, hown, hperm⟩ := CodeChunk.build_supplies hc hv
    obtain ⟨rest, hrest, hperms⟩ := ih hcs
    refine ⟨own ++ rest, hown.append hrest, List.perm_iff_count.mpr fun l => ?_⟩
    have hbody : Lowering.bodyLabels code [f] = value.labels := by
      simp [Lowering.bodyLabels, hv]
    have hcount := hperm.count_eq l
    have hcounts := hperms.count_eq l
    rw [List.flatMap_cons, ← List.singleton_append (l := fs), Lowering.bodyLabels_append,
      hbody]
    simp only [List.count_append] at hcount hcounts ⊢
    omega

/-- The code of a chunk repeats no label and does not define its exit, when the tree it is made from
repeats none and all of them are old. -/
theorem CodeChunk.build_labels {layout : Layout} {code : Lowered} {value : Ir.Expr}
    (h : CodeChunk.build layout code head body s = .ok c s')
    (hvalue : code.exprs[body.id]? = some value) (hnodup : value.labels.Nodup)
    (hold : ∀ l ∈ value.labels, s.names.HasLabel l) :
    (Ir.Stmt.listLabels c.stmts).Nodup ∧ c.exit ∉ Ir.Stmt.listLabels c.stmts := by
  obtain ⟨fresh, hfresh, hperm⟩ := CodeChunk.build_supplies h hvalue
  have hall : c.labels.Nodup := by
    refine hperm.nodup_iff.mpr (List.nodup_append.mpr ⟨hnodup, hfresh.nodup, ?_⟩)
    rintro l hl _ hl' rfl
    exact hfresh.not_mem (hold l hl) hl'
  obtain ⟨hnd, -, hdisj⟩ := List.nodup_append.mp hall
  exact ⟨hnd, fun hm => hdisj _ hm _ (List.mem_singleton_self _) rfl⟩

/-- A body holds the code of an expression, lowered within a frame. -/
structure Machine.Body.Codes (b : Body) (layout : Layout) (names : Names) (frame : Frame)
    (e : Expr) : Prop where
  chunk : b.chunk.frame = frame
  code : ∃ ir t t' s s', Lowering.expr { layout, frame := some frame } e t s = .ok (ir, t') s' ∧
    s'.names ≤ names ∧
    ∃ loc r r' flat entry q, (Ir.Stmt.move (.temp frame.rv) ir).canonize loc r = .ok flat r' ∧
      frame.fp.index < r.names.temps ∧
      b.Occupies 0 (.label entry :: flat ++ [.jump b.chunk.exit]) q

theorem Machine.Body.codes_ofChunk {layout : Layout} {code : Lowered} {n names : Names}
    (h : CodeChunk.build layout code head body s = .ok c s')
    (hbody : Lowering.HasBody layout n code head body) (hhand : Layouting.Handed layout n)
    (hle : n ≤ s.names) (hnames : n ≤ names) :
    (Body.ofChunk c).Codes layout names c.frame body := by
  obtain ⟨value, flat, s₁, hf, hv, hflat, hstmts, -⟩ := CodeChunk.build_ok h
  obtain ⟨frame, ir, t, t', r, r', hframe, hir, hler, hent⟩ := hbody
  obtain rfl : c.frame = frame := Option.some.inj (hf.symm.trans hframe)
  obtain rfl : value = ir := Option.some.inj (hv.symm.trans hent)
  have hchange := (Lowering.expr_lowers hir).change
  have hold : ∀ l ∈ value.labels, s.names.HasLabel l := fun l hl =>
    Nat.lt_of_lt_of_le (hchange.supplies.hasLabel hl) (Names.labels_le (Names.le_trans hler hle))
  obtain ⟨hnd, hout⟩ := CodeChunk.build_labels h hv hchange.supplies.nodup hold
  refine ⟨rfl, value, t, t', r, r', hir, Names.le_trans hler hnames, head.loc, _, s₁, flat, _, _,
    hflat, ?_, Body.occupies_ofChunk hstmts hnd hout⟩
  exact Nat.lt_of_lt_of_le (hhand hf) (Names.temps_le (Names.le_trans hle
    (Names.le_trans (Names.le_newLabel _) (Names.le_newLabel _))))

/-! ## Chunks in lockstep with functions -/

/-- A chunk was built for a function, between these names. -/
def BuiltFor (layout : Layout) (code : Lowered) (n n' : Names) (c : CodeChunk)
    (f : Head × Expr) : Prop :=
  ∃ s s', CodeChunk.build layout code f.1 f.2 s = .ok c s' ∧ n ≤ s.names ∧ s'.names ≤ n'

/-- Chunks are those of these functions and these data. -/
structure ChunksOf (layout : Layout) (code : Lowered) (n n' : Names) (cs : Chunks)
    (fs : List (Head × Expr)) (data : List DataChunk) : Prop where
  names : n ≤ n'
  code : List.Forall₂ (BuiltFor layout code n n') cs.code fs
  data : cs.data = data

section Chunks

variable {layout : Layout} {code : Lowered}

theorem builtFor_of_mapM {fs : List (Head × Expr)} :
    ∀ {s s' : Session} {cs : List CodeChunk},
      fs.mapM (fun f => CodeChunk.build layout code f.1 f.2) s = .ok cs s' →
      s.names ≤ s'.names ∧ List.Forall₂ (BuiltFor layout code s.names s'.names) cs fs := by
  induction fs with
  | nil =>
    intro s s' cs h
    obtain ⟨rfl, rfl⟩ := pure_ok.mp h
    exact ⟨Names.le_refl _, .nil⟩
  | cons f fs ih =>
    intro s s' cs h
    rw [List.mapM_cons] at h
    obtain ⟨c, s₁, hc, h⟩ := bind_ok.mp h
    obtain ⟨cs', s₂, hcs, h⟩ := bind_ok.mp h
    obtain ⟨rfl, rfl⟩ := pure_ok.mp h
    obtain ⟨value, _, _, -, hv, -⟩ := CodeChunk.build_ok hc
    obtain ⟨fresh, hfresh, -⟩ := CodeChunk.build_supplies hc hv
    have hle := hfresh.le
    obtain ⟨hle', hrest⟩ := ih hcs
    refine ⟨Names.le_trans hle hle', .cons ⟨s, s₁, hc, Names.le_refl _, hle'⟩ (hrest.imp ?_)⟩
    rintro c f ⟨r, r', hb, hr, hr'⟩
    exact ⟨r, r', hb, Names.le_trans hle hr, hr'⟩

theorem Chunks.append_eq (a b : Chunks) :
    a ++ b = { code := a.code ++ b.code, data := a.data ++ b.data } := rfl

mutual

theorem Typed.Routine.chunks_eq :
    ∀ r : Routine, r.chunks layout code = (do
      let cs ← r.functions.mapM fun f => CodeChunk.build layout code f.1 f.2
      return { code := cs, data := r.data layout })
  | .mk head none inner => by
    simp only [Routine.chunks, Routine.functions, Routine.data, List.mapM_nil, pure_bind]
  | .mk head (some body) inner => by
    simp only [Routine.chunks, Routine.functions, Routine.data, List.mapM_append, List.mapM_cons,
      List.mapM_nil, Typed.Routine.listChunks_eq inner, bind_assoc, pure_bind, Chunks.append_eq,
      List.nil_append, List.append_nil]

theorem Typed.Routine.listChunks_eq :
    ∀ rs : List Routine, Routine.listChunks layout code rs = (do
      let cs ← (Routine.listFunctions rs).mapM fun f => CodeChunk.build layout code f.1 f.2
      return { code := cs, data := Routine.listData layout rs })
  | [] => by
    simp only [Routine.listChunks, Routine.listFunctions, Routine.listData, List.mapM_nil,
      pure_bind]
  | r :: rs => by
    simp only [Routine.listChunks, Routine.listFunctions, Routine.listData, List.mapM_append,
      Typed.Routine.chunks_eq r, Typed.Routine.listChunks_eq rs, bind_assoc, pure_bind,
      Chunks.append_eq]

end

theorem Typed.Program.chunks_eq (p : Program) : p.chunks layout code = (do
    let cs ← p.functions.mapM fun f => CodeChunk.build layout code f.1 f.2
    return { code := cs, data := p.data layout }) := by
  unfold Program.chunks Program.functions Program.data
  induction p.decls with
  | nil =>
    simp only [Decl.listChunks, Decl.listRoutines, Routine.listFunctions, List.mapM_nil,
      List.flatMap_nil, pure_bind]
  | cons d ds ih =>
    have hd : d.chunks layout code = (do
        let cs ← (Routine.listFunctions d.routine?.toList).mapM
          fun f => CodeChunk.build layout code f.1 f.2
        return { code := cs, data := d.data layout }) := by
      cases d with
      | var v => rfl
      | foreign head => rfl
      | fn head body =>
        simp only [Decl.chunks, Typed.Routine.chunks_eq, Decl.routine?, Option.toList_some,
          Routine.listFunctions, List.append_nil, Decl.data]
    simp only [Decl.listChunks, hd, ih, Decl.listRoutines, Routine.listFunctions_append,
      List.mapM_append, List.flatMap_cons, bind_assoc, pure_bind, Chunks.append_eq]

theorem Typed.Program.chunksOf {p : Program} {cs : Chunks} (h : p.chunks layout code s = .ok cs s') :
    ChunksOf layout code s.names s'.names cs p.functions (p.data layout) := by
  rw [Program.chunks_eq] at h
  obtain ⟨cs, s₁, hbuild, hpure⟩ := bind_ok.mp h
  obtain ⟨rfl, rfl⟩ := pure_ok.mp hpure
  obtain ⟨hle, hcode⟩ := builtFor_of_mapM hbuild
  exact ⟨hle, hcode, rfl⟩

end Chunks

/-! ## What labels lead to -/

/-- Under each label, the machine has the code of what a program has there. -/
def Linked (layout : Layout) (names : Names) (bodies : Table Label Body)
    (table : Table Label (Frame × Expr)) : Prop :=
  ∀ l : Label, bodies[l]? = none ∧ table[l]? = none ∨
    ∃ (body : Body) (frame : Frame) (e : Expr), bodies[l]? = some body ∧
      table[l]? = some (frame, e) ∧ body.Codes layout names frame e

theorem Linked.insert {layout : Layout} {names : Names} {bodies : Table Label Body}
    (h : Linked layout names bodies table) {body : Body} {frame : Frame} {e : Expr}
    (hc : body.Codes layout names frame e) (l : Label) :
    Linked layout names (bodies.insert l body) (table.insert l (frame, e)) := by
  intro l'
  by_cases hl : l = l'
  · subst hl
    exact Or.inr ⟨body, frame, e, Std.ExtTreeMap.getElem?_insert_self,
      Std.ExtTreeMap.getElem?_insert_self, hc⟩
  · rw [Table.getElem?_insert_of_ne hl, Table.getElem?_insert_of_ne hl]
    exact h l'

/-- The bodies that the machine loads are those of the program's functions. -/
theorem linked_bodies {layout : Layout} {code : Lowered} {n n' names : Names}
    (hhand : Layouting.Handed layout n) (hnames : n ≤ names) {cs : List CodeChunk}
    {fs : List (Head × Expr)} (h : List.Forall₂ (BuiltFor layout code n n') cs fs)
    (hfs : ∀ f ∈ fs, Lowering.HasBody layout n code f.1 f.2) :
    ∀ {bodies : Table Label Body} {table : Table Label (Frame × Expr)},
      Linked layout names bodies table →
      Linked layout names
        (cs.foldl (fun t c => t.insert c.frame.label (Body.ofChunk c)) bodies)
        (fs.foldl (fun t f =>
          match layout.frames[f.1.id]? with
          | some frame => t.insert frame.label (frame, f.2)
          | none => t) table) := by
  induction h with
  | nil => exact fun h => h
  | @cons c f cs fs hc _ ih =>
    intro bodies table hl
    obtain ⟨s, s', hbuild, hle, -⟩ := hc
    obtain ⟨-, -, -, hframe, -⟩ := CodeChunk.build_ok hbuild
    have hcodes := Body.codes_ofChunk hbuild (hfs f (by simp)) hhand hle hnames
    simp only [List.foldl_cons, hframe]
    exact ih (fun g hg => hfs g (by simp [hg])) (hl.insert hcodes _)

/-- Calls reach what is under the label of a function; allocation and release reach what is under
theirs. -/
structure Linkage.Resolves (L : Linkage) (names : Names) (layout : Layout)
    (table : Table Label (Frame × Expr)) : Prop where
  function : ∀ ⦃d : DeclId⦄ ⦃frame : Frame⦄, layout.frames[d]? = some frame →
    L.function d = some (Callee.under names table frame.label)
  runtime : ∀ ⦃op : PrefixOp⦄ ⦃l : Label⦄, op = .new ∨ op = .del →
    names.lookup (Lowering.runtimeName op) = some l →
    L.runtime (Lowering.runtimeName op) = Callee.under names table l

/-- Everything a compiled program's machine and its direct evaluation share. -/
structure Agree (image : Image) (setting : Setting) (table : Table Label (Frame × Expr)) :
    Prop where
  names : image.names = setting.names
  data : image.data = setting.data
  linked : Linked setting.layout setting.names image.bodies table
  linkage : setting.linkage.Resolves setting.names setting.layout table

/-- A label reaches what the program has there, when the run of every body does what the
evaluation does. -/
theorem Agree.reaches {image : Image} {setting : Setting} (h : Agree image setting table) {σ : Site}
    (hσ : σ.image = image)
    (hruns : ∀ (body : Body) (frame : Frame) (e : Expr),
      body.Codes setting.layout setting.names frame e →
      σ.Runs σ.running.rounds (σ.level + 1) body (σ.running.run frame · e))
    (l : Label) :
    σ.Reaches l (Callee.under setting.names table l) := by
  unfold Callee.under
  rcases h.linked l with ⟨hnone, htable⟩ | ⟨body, frame, e, hbody, htable, hcodes⟩
  · simp only [htable]
    exact ⟨hσ ▸ hnone, by rw [hσ, h.names]⟩
  · simp only [htable]
    exact ⟨body, hσ ▸ hbody, hcodes.chunk, hruns body frame e hcodes⟩

/-- With so much fuel, the run of a function does what its direct evaluation does.  The limit on
calls is out of the way when it allows the level and the fuel together. -/
theorem Agree.runs {image : Image} {setting : Setting} (h : Agree image setting table) {c : Course}
    (hc : c.image = image) :
    ∀ (fuel level : Nat), (c.callDepth < level + fuel → c.deep) →
      ∀ (body : Body) (frame : Frame) (e : Expr), body.Codes setting.layout setting.names frame e →
        c.Runs (fuel + 1) level body (Evaluation.function setting fuel frame · e) := by
  intro fuel
  induction fuel with
  | zero =>
    intro level _ body frame e _ m hm callers fp w k _
    obtain rfl : m = 0 := by omega
    exact Or.inr ⟨_, rfl⟩
  | succ fuel ih =>
    intro level hdeep body frame e hcodes m hm callers fp w k hk
    obtain ⟨rfl, ir, t, t', s, s', hir, hle, loc, r, r', flat, entry, q, hflat, hfp, hocc⟩ :=
      hcodes
    let σ : Site :=
      { toCourse := c, body, level, callers
        running := { setting, frame := body.chunk.frame, fp,
                     run := Evaluation.function setting fuel, rounds := fuel + 1 }
        deep_of_le := fun hle => hdeep (by omega)
        rounds_pos := Nat.succ_pos fuel }
    have hreach := h.reaches (σ := σ) hc (ih (level + 1) fun hlt => hdeep (by omega))
    have hσ : σ.Fits { layout := setting.layout, frame := some body.chunk.frame } :=
      { layout := rfl
        frame := rfl
        fp := rfl
        names := hc ▸ h.names
        data := hc ▸ h.data
        function := fun hd => ⟨_, h.linkage.function hd, hreach _⟩
        runtime := fun {op l} hop hl => by
          have heq := h.linkage.runtime hop (h.names ▸ hc ▸ hl)
          exact heq ▸ hreach l }
    have hx := hσ.realizes (Lowering.expr_lowers hir) (hc ▸ h.names ▸ hle) (k := 0) rfl
    have hready : σ.Ready r ((∅ : Table Temp Word).insert body.chunk.frame.fp fp) :=
      ⟨hfp, getElem?_insert_temp _ _ _⟩
    exact hx.returns hflat hocc hready (Nat.le_of_lt_succ hm) hk

end MmixBackend
