import MmixBackend.Proofs.Drawing
import MmixBackend.Proofs.Structure

/-!
# Well-formed chunks

The code of a function is canonical, starts at its entry, ends with a jump to its exit, and goes
nowhere else: every other label it goes to stands in it, once.  A branch stands before the label it
goes to on zero, and that label before a jump.

A jump or a branch in the code of a tree goes to a label of that tree, since trees are structured.
Code made linear keeps its labels and goes, besides, to the labels that are drawn for its branches.

Main statement: this holds of every chunk of every program that compiles.  Nodes need not differ,
so the tree under the node of a body may be any tree that lowering made.
-/

namespace MmixBackend

open Typed Build

namespace Ir

/-! ## Where canonical code goes -/

/-- The labels that a statement of canonical code goes to. -/
def Stmt.goals : Stmt → List Label
  | .jump l => [l]
  | .branch _ pos neg => [pos, neg]
  | .move .. | .eval _ | .label _ | .seq _ => []

/-- Every label that the code goes to is one of these. -/
def StaysIn (code : List Stmt) (labels : List Label) : Prop :=
  ∀ st ∈ code, st.goals ⊆ labels

def Transfer.goals : Transfer → List Label
  | .label _ => []
  | .jump l => [l]
  | .branch pos neg => [pos, neg]

section StaysIn

variable {code : List Stmt} {labels labels' : List Label} {st : Stmt} {ts ts' : List Transfer}

@[simp] theorem staysIn_nil : StaysIn [] labels := by
  simp [StaysIn]

@[simp] theorem staysIn_cons :
    StaysIn (st :: code) labels ↔ st.goals ⊆ labels ∧ StaysIn code labels := by
  simp [StaysIn]

theorem staysIn_of_transfers (h : (Stmt.listTransfers code).flatMap Transfer.goals ⊆ labels) :
    StaysIn code labels := by
  induction code with
  | nil => exact staysIn_nil
  | cons st code ih =>
    rw [Stmt.listTransfers, List.flatMap_append, List.append_subset] at h
    refine staysIn_cons.mpr ⟨List.Subset.trans ?_ h.1, ih h.2⟩
    cases st <;> simp [Stmt.goals, Stmt.transfers, Transfer.goals]

theorem goals_append (h : ts.flatMap Transfer.goals ⊆ labels)
    (h' : ts'.flatMap Transfer.goals ⊆ labels') :
    (ts ++ ts').flatMap Transfer.goals ⊆ labels ++ labels' := by
  rw [List.flatMap_append, List.append_subset]
  exact ⟨List.subset_append_of_subset_left _ h, List.subset_append_of_subset_right _ h'⟩

end StaysIn

mutual

/-- A structured expression goes to labels of its own only. -/
theorem Expr.Structured.goals :
    ∀ {e : Expr}, e.Structured → e.transfers.flatMap Transfer.goals ⊆ e.labels
  | _, .const _ | _, .name _ | _, .temp _ => List.nil_subset _
  | _, .mem h | _, .unary h => h.goals
  | _, .call h => h.goals
  | _, .binary h h' | _, .after h h' => goals_append h.goals h'.goals

theorem Expr.AllStructured.goals : ∀ {es : List Expr}, Expr.AllStructured es →
    (Expr.listTransfers es).flatMap Transfer.goals ⊆ Expr.listLabels es
  | _, .nil => List.nil_subset _
  | _, .cons h h' => goals_append h.goals h'.goals

theorem Stmt.Structured.goals :
    ∀ {st : Stmt}, st.Structured → st.transfers.flatMap Transfer.goals ⊆ st.labels
  | _, .move h h' => goals_append h.goals h'.goals
  | _, .eval h => h.goals
  | _, .seq h => h.goals
  | _, .cond hc hys hns => by
    have hc := hc.goals
    have hys := hys.goals
    have hns := hns.goals
    simp only [Stmt.transfers, Stmt.labels, Stmt.listTransfers, Stmt.listLabels,
      Stmt.listTransfers_append, Stmt.listLabels_append, List.flatMap_append, List.flatMap_cons,
      List.flatMap_nil, Transfer.goals]
    grind
  | _, .loop hc hss => by
    have hc := hc.goals
    have hss := hss.goals
    simp only [Stmt.transfers, Stmt.labels, Stmt.listTransfers, Stmt.listLabels,
      Stmt.listTransfers_append, Stmt.listLabels_append, List.flatMap_append, List.flatMap_cons,
      List.flatMap_nil, Transfer.goals]
    grind

theorem Stmt.AllStructured.goals : ∀ {ss : List Stmt}, Stmt.AllStructured ss →
    (Stmt.listTransfers ss).flatMap Transfer.goals ⊆ Stmt.listLabels ss
  | _, .nil => List.nil_subset _
  | _, .cons h h' => goals_append h.goals h'.goals

end

/-- The code of a structured statement goes to labels of the statement only. -/
theorem Stmt.Structured.staysIn {loc : Location} {st : Stmt} {s s' : Session} {code : List Stmt}
    (h : st.Structured) (hcode : st.canonize loc s = .ok code s') : StaysIn code st.labels :=
  staysIn_of_transfers (Stmt.transfers_canonize hcode ▸ h.goals)

/-! ## Labels of canonical code -/

theorem Expr.labels_of_isValue : ∀ {e : Expr}, e.isValue → e.labels = []
  | .const _, _ | .name _, _ | .temp _, _ => rfl
  | .unary _ e, h => Expr.labels_of_isValue (e := e) h
  | .binary _ (.temp _) (.temp _), _ => rfl
  | .call _ _ args, h => by
    induction args with
    | nil => rfl
    | cons a as ih =>
      simp only [Expr.isValue, List.all_cons, Bool.and_eq_true] at h
      cases a with
      | temp t => exact ih h.2
      | const | name | mem | binary | unary | call | after => cases h.1

theorem Stmt.eq_label_of_mem_labels {st : Stmt} {l : Label} (h : st.isCanonical)
    (hl : l ∈ st.labels) : st = .label l := by
  cases st with
  | label l' =>
    obtain rfl := List.mem_singleton.mp hl
    rfl
  | jump l' => cases hl
  | seq ss => cases h
  | eval e | branch c pos neg => simp [Stmt.labels, Expr.labels_of_isValue h] at hl
  | move dst src =>
    cases dst with
    | mem a =>
      cases a with
      | temp t =>
        cases src with
        | temp t' => cases hl
        | const | name | mem | binary | unary | call | after => cases h
      | const | name | mem | binary | unary | call | after => cases h
    | temp t =>
      have hsrc : src.labels = [] := by
        cases src with
        | mem a => exact Expr.labels_of_isValue (e := a) h
        | const | name | temp | binary | unary | call | after =>
          exact Expr.labels_of_isValue h
      simp [Stmt.labels, Expr.labels, hsrc] at hl
    | const | name | binary | unary | call | after => cases h

theorem label_mem_of_isCanonical {code : List Stmt} {l : Label} (h : isCanonical code)
    (hl : l ∈ Stmt.listLabels code) : .label l ∈ code := by
  induction code with
  | nil => cases hl
  | cons st code ih =>
    rw [isCanonical_cons, Bool.and_eq_true] at h
    rcases List.mem_append.mp hl with hl | hl
    · rw [Stmt.eq_label_of_mem_labels h.1 hl]
      exact List.mem_cons_self
    · exact List.mem_cons_of_mem _ (ih h.2 hl)

end Ir

/-! ## Linear code -/

section Linear

variable {n n' : Names} {ss lin : List Ir.Stmt} {labels : List Label}

/-- A jump behind the code stays behind it. -/
theorem Linearizes.jump_last {l : Label} (h : Linearizes n (ss ++ [.jump l]) lin n') :
    ∃ code, Linearizes n ss code n' ∧ lin = code ++ [.jump l] := by
  induction ss generalizing n lin with
  | nil =>
    cases h with
    | other _ h =>
      cases h
      exact ⟨[], .nil, rfl⟩
  | cons st ss ih =>
    cases h with
    | branch h =>
      obtain ⟨code, hcode, rfl⟩ := ih h
      exact ⟨_, .branch hcode, rfl⟩
    | other hst h =>
      obtain ⟨code, hcode, rfl⟩ := ih h
      exact ⟨_, .other hst hcode, rfl⟩

/-- Linear code goes where the code it is made from goes, or to a label of its own. -/
theorem Ir.StaysIn.linearizes (hs : Ir.StaysIn ss labels) (h : Linearizes n ss lin n')
    (hsub : Ir.Stmt.listLabels lin ⊆ labels) : Ir.StaysIn lin labels := by
  induction h with
  | nil => exact hs
  | branch _ ih =>
    obtain ⟨hst, hss⟩ := staysIn_cons.mp hs
    simp only [Stmt.listLabels, Stmt.labels, List.nil_append, List.append_subset,
      List.singleton_append, List.cons_subset] at hsub
    simp only [Stmt.goals, List.cons_subset] at hst
    simpa [Stmt.goals, hst.1, hst.2.1, hsub.2.1] using ih hss hsub.2.2
  | other _ _ ih =>
    obtain ⟨hst, hss⟩ := staysIn_cons.mp hs
    exact staysIn_cons.mpr ⟨hst, ih hss (List.append_subset.mp hsub).2⟩

/-- In linear code a branch stands before the label it goes to on zero, and that before a jump. -/
theorem Linearizes.falls (h : Linearizes n ss lin n') {i : Nat} {e : Ir.Expr} {pos neg : Label}
    (hi : lin[i]? = some (.branch e pos neg)) :
    lin[i + 1]? = some (.label neg) ∧ ∃ l, lin[i + 2]? = some (.jump l) := by
  induction h generalizing i with
  | nil => simp at hi
  | branch _ ih =>
    match i with
    | 0 =>
      cases hi
      exact ⟨rfl, _, rfl⟩
    | 1 | 2 => cases hi
    | i + 3 => exact ih hi
  | other hst _ ih =>
    match i with
    | 0 =>
      cases hi
      cases hst
    | i + 1 => exact ih hi

end Linear

/-! ## Chunks -/

structure CodeChunk.WellFormed (c : CodeChunk) : Prop where
  canonical : Ir.isCanonical c.stmts
  first : c.stmts.head? = some (.label c.entry)
  last : c.stmts.getLast? = some (.jump c.exit)
  labels : (Ir.Stmt.listLabels c.stmts).Nodup
  exit : c.exit ∉ Ir.Stmt.listLabels c.stmts
  jumps : ∀ i l, c.stmts[i]? = some (.jump l) →
    .label l ∈ c.stmts ∨ l = c.exit ∧ i + 1 = c.stmts.length
  branches : ∀ i e pos neg, c.stmts[i]? = some (.branch e pos neg) →
    .label pos ∈ c.stmts ∧ c.stmts[i + 1]? = some (.label neg) ∧
      ∃ l, c.stmts[i + 2]? = some (.jump l)

/-- The chunk built for a function is well formed when every tree in the table was made by
lowering. -/
theorem CodeChunk.build_wellFormed {layout : Layout} {code : Lowered} {head : Head} {body : Expr}
    {s s' : Session} {c : CodeChunk} (h : CodeChunk.build layout code head body s = .ok c s')
    (hmade : Lowering.AllMade layout s.names code) : c.WellFormed := by
  obtain ⟨value, flat, s₁, -, hv, hflat, hstmts, -⟩ := CodeChunk.build_ok h
  obtain ⟨scope, e, t, t', r, r', -, hir, hler⟩ := hmade hv
  have hchange := (Lowering.expr_lowers hir).change
  obtain ⟨hnodup, hexit⟩ := CodeChunk.build_labels h hv hchange.supplies.nodup fun l hl =>
    Nat.lt_of_lt_of_le (hchange.supplies.hasLabel hl) (Names.labels_le hler)
  have hcanon : Ir.isCanonical c.stmts := by
    rw [hstmts.temps.2.2]
    simpa [Ir.Stmt.isCanonical] using Ir.Stmt.isCanonical_canonize hflat
  -- all but the last jump stays among the labels of the chunk
  obtain ⟨lin, hlin, hsplit⟩ := hstmts.jump_last
  have hsub : Ir.Stmt.listLabels lin ⊆ Ir.Stmt.listLabels c.stmts := by
    rw [hsplit, Ir.Stmt.listLabels_append]
    exact List.subset_append_left _ _
  have hstays : Ir.StaysIn lin (Ir.Stmt.listLabels c.stmts) := by
    refine Ir.StaysIn.linearizes ?_ hlin hsub
    have hvalue : value.labels ⊆ Ir.Stmt.listLabels c.stmts := by
      obtain ⟨_, -, hperm⟩ := hlin.supplies
      refine List.Subset.trans ?_ (List.Subset.trans hperm.symm.subset hsub)
      have hflatLabels := Ir.Stmt.labels_canonize hflat
      simp [Ir.Stmt.listLabels, Ir.Stmt.labels, Ir.Expr.labels, hflatLabels]
    have hmove := (Ir.Stmt.Structured.move (.temp c.frame.rv)
      (Lowering.expr_lowers hir).structured).staysIn hflat
    exact Ir.staysIn_cons.mpr
      ⟨List.nil_subset _, fun st hst => List.Subset.trans (hmove st hst) hvalue⟩
  have hfirst : lin.head? = some (.label c.entry) := by
    cases hlin
    rfl
  refine ⟨hcanon, ?_, ?_, hnodup, hexit, ?_, ?_⟩
  · rw [hsplit, List.head?_append, hfirst]
    rfl
  · rw [hsplit, List.getLast?_concat]
  · intro i l hi
    rcases Nat.lt_trichotomy i lin.length with hlt | rfl | hgt
    · rw [hsplit, List.getElem?_append_left hlt] at hi
      exact Or.inl (Ir.label_mem_of_isCanonical hcanon
        (hstays _ (List.mem_of_getElem? hi) List.mem_cons_self))
    · rw [hsplit, List.getElem?_concat_length] at hi
      cases hi
      exact Or.inr ⟨rfl, by simp [hsplit]⟩
    · rw [hsplit, List.getElem?_eq_none (by rw [List.length_append]; exact hgt)] at hi
      cases hi
  · intro i e pos neg hi
    refine ⟨?_, hstmts.falls hi⟩
    have hmem := List.mem_of_getElem? hi
    rw [hsplit, List.mem_append, List.mem_singleton, or_iff_left Ir.Stmt.noConfusion] at hmem
    exact Ir.label_mem_of_isCanonical hcanon (hstays _ hmem List.mem_cons_self)

/-- Every chunk of a compiled program is well formed. -/
theorem Typed.Program.compile_wellFormed {p : Program} {s₀ s : Session} {c : Compiled}
    (h : p.compile s₀ = .ok c s) : ∀ chunk ∈ c.chunks.code, chunk.WellFormed := by
  obtain ⟨s₁, s₂, -, hlower, hchunks⟩ := Program.compile_ok h
  intro chunk hchunk
  obtain ⟨f, -, r, r', hbuild, hle, -⟩ :=
    exists_rel_of_mem (Program.chunksOf hchunks).code chunk hchunk
  have hmade := (Lowering.functions_lowers hlower).allMade rfl (Lowering.allMade_empty s₁.names)
  exact CodeChunk.build_wellFormed hbuild (hmade.mono hle)

/-- A conditional in the condition of a loop; all its nodes are one. -/
def wavering : Program where
  decls := [.fn ⟨⟨0⟩, "main", [], .int, {}⟩ (.scope (.value 0)
    (.block (.value 0) [
      .loop ⟨⟨0⟩, {}⟩
        (.block (.value 0) [
          .cond ⟨⟨0⟩, {}⟩ (.name (.place 0) ⟨1⟩)
            [.assign ⟨⟨0⟩, {}⟩ (.name (.place 0) ⟨1⟩) (.atom (.value 0) (.int 0))]
            [.assign ⟨⟨0⟩, {}⟩ (.name (.place 0) ⟨1⟩) (.atom (.value 0) (.int 1))],
          .eval ⟨⟨0⟩, {}⟩ (.name (.place 0) ⟨1⟩)])
        [.eval ⟨⟨0⟩, {}⟩ (.name (.place 0) ⟨1⟩)],
      .eval ⟨⟨0⟩, {}⟩ (.name (.place 0) ⟨1⟩)])
    [.var ⟨⟨1⟩, "x", .int, {}⟩])]

theorem compile_wellFormed_wavering :
    ∃ c s, wavering.compile {} = .ok c s ∧ c.chunks.code.map (·.stmts.length) = [41] ∧
      ∀ chunk ∈ c.chunks.code, chunk.WellFormed := by
  have hrun : ∃ c s, wavering.compile {} = .ok c s ∧
      c.chunks.code.map (·.stmts.length) = [41] := by
    decide +kernel
  obtain ⟨c, s, hc, hlength⟩ := hrun
  exact ⟨c, s, hc, hlength, Program.compile_wellFormed hc⟩

end MmixBackend
