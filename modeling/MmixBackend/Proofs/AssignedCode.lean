import MmixBackend.Proofs.Allocation
import MmixBackend.Proofs.Assembling
import MmixBackend.Proofs.Assignment
import MmixBackend.Proofs.Paths

/-!
# No temporary is read before it is written

Definite assignment goes down from the statements of a chunk to the instructions that are selected
for them, and through every spill to the code that allocation ends with.  A selected instruction
writes its own temporaries before it reads them.  A spill takes the temporary out of all sets; what
it puts in its place is written right before it is read.

The sets of what was written on every way are closed under the flow, and liveness, being the least
such sets, stays below them.  So what is live before the first instruction was there before it: the
frame pointer.
-/

namespace MmixBackend

open Typed Build

/-! ## Instructions -/

/-- The footprint of an instruction.  A call comes back. -/
def Instr.footprint (i : Instr) : Footprint where
  reads := i.uses
  writes := i.defs
  goals := if i.isCall then [] else i.jumps
  mark := match i with
    | .label l => some l
    | .oper .. | .move .. => none

/-- The instruction goes on to the next one and is no label. -/
def Instr.Plain (i : Instr) : Prop := i.footprint.mark = none ∧ i.footprint.goals = []

section Straight

variable {Γ : Written} {P Q R : Set Temp} {code code' : List Instr} {i : Instr}

theorem Instr.Plain.next (h : i.Plain) : i.footprint.next Γ P = P ∪ {t | t ∈ i.defs} := by
  simp only [Footprint.next, h.1, h.2, if_true]
  rfl

theorem plain_oper {op : Op} {us ds : List Temp} {js : List Label} (h : op.isCall ∨ js = []) :
    (Instr.oper op us ds js).Plain := by
  refine ⟨rfl, ?_⟩
  rcases h with h | rfl
  · exact if_pos h
  · exact ite_self _

theorem plain_move {op : Op} {d u : Temp} : (Instr.move op d u).Plain := ⟨rfl, rfl⟩

theorem plain_of_mem_loadConstant {t : Temp} {v : Word} (h : i ∈ loadConstant t v) : i.Plain := by
  obtain ⟨step, -, rfl⟩ := List.mem_map.mp h
  cases step <;> exact plain_oper (Or.inr rfl)

theorem assigns_plain (hi : i.Plain) (huses : ∀ u ∈ i.uses, u ∈ P) :
    Assigns Γ P ([i].map Instr.footprint) (P ∪ {t | t ∈ i.defs}) :=
  ⟨⟨huses, by simp [hi.2], by simp [hi.1]⟩, hi.next.superset⟩

theorem Assigns.trans (h : Assigns Γ P (code.map Instr.footprint) Q)
    (h' : Assigns Γ Q (code'.map Instr.footprint) R) :
    Assigns Γ P ((code ++ code').map Instr.footprint) R := by
  rw [List.map_append]
  exact h.append h'

theorem assigns_loadConstant (t : Temp) (v : Word) :
    Assigns Γ P ((loadConstant t v).map Instr.footprint) (insert t P) := by
  -- after the first instruction the temporary is there for the others to work on
  have hrest : ∀ is : List Instr, (∀ i ∈ is, i ∈ loadConstant t v) →
      Assigns Γ (insert t P) (is.map Instr.footprint) (insert t P) := by
    intro is
    induction is with
    | nil => exact fun _ => assigns_nil
    | cons i is ih =>
      intro his
      obtain ⟨hi, his⟩ := List.forall_mem_cons.mp his
      obtain ⟨huses, -, -, -⟩ := mem_loadConstant hi
      have hone := assigns_plain (Γ := Γ) (P := insert t P) (plain_of_mem_loadConstant hi)
        fun u hu => Or.inl (huses u hu)
      exact (hone.mono subset_rfl Set.subset_union_left).trans (ih his)
  obtain ⟨n, rest, hsplit⟩ := loadConstant_eq t v
  rw [hsplit]
  have hone : Assigns Γ P ([Instr.oper (.setLow n) [] [t] []].map Instr.footprint) (insert t P) :=
    (assigns_plain (plain_oper (Or.inr rfl)) (by simp [Instr.uses])).mono subset_rfl
      (by simp [Instr.defs])
  have hall : Assigns Γ (insert t P) (rest.map Instr.footprint) (insert t P) :=
    hrest rest fun i hi => hsplit ▸ List.mem_cons_of_mem _ hi
  exact hone.trans hall

end Straight

namespace Selection

/-! ## Selected instructions -/

section

variable {window : Nat} {loc : Location} {Γ : Written} {P Q : Set Temp}

variable {code : List Instr} {s s' : Session}

theorem constant_assigns {v : Word} {t : Temp} (h : constant v s = .ok (code, t) s') :
    Assigns Γ P (code.map Instr.footprint) (insert t P) := by
  simp only [constant, bind_ok, newTemp_ok, pure_ok, Prod.mk.injEq] at h
  obtain ⟨_, _, ⟨rfl, rfl⟩, ⟨rfl, rfl⟩, rfl⟩ := h
  exact assigns_loadConstant _ v

theorem binary_assigns {op : BinOp} {l r t : Temp} (hl : l ∈ P) (hr : r ∈ P) :
    Assigns Γ P ((binary op l r t).map Instr.footprint) (insert t P) := by
  have hfirst : ∀ op : Op, Assigns Γ P ([Instr.oper op [l, r] [t] []].map Instr.footprint)
      (insert t P) := fun op =>
    (assigns_plain (plain_oper (Or.inr rfl)) (by simp [Instr.uses, hl, hr])).mono subset_rfl
      (by simp [Instr.defs])
  have hsecond : ∀ (op : Op) (us : List Temp), us ⊆ [t] →
      Assigns Γ (insert t P) ([Instr.oper op us [t] []].map Instr.footprint) (insert t P) := by
    intro op us hus
    refine (assigns_plain (plain_oper (Or.inr rfl)) fun u hu => ?_).mono subset_rfl
      Set.subset_union_left
    exact Or.inl (List.mem_singleton.mp (hus hu))
  unfold binary
  split
  · exact (hfirst .compare).trans (hsecond (.test (testOf op)) [t] (List.Subset.refl _))
  · split
    · exact (hfirst (.arith .div)).trans (hsecond .remainder [] (List.nil_subset _))
    · exact hfirst _

mutual

/-- The instructions of an expression keep what was written and write the temporary with its
value. -/
theorem expr_assigns :
    ∀ {e : Ir.Expr} {s s' : Session} {code : List Instr} {t : Temp} {P : Set Temp},
      expr window loc e s = .ok (code, t) s' → (∀ u ∈ e.temps, u ∈ P) →
      ∃ Q, P ⊆ Q ∧ t ∈ Q ∧ Assigns Γ P (code.map Instr.footprint) Q
  | .const v, _, _, _, _, P, h, _ =>
    ⟨_, Set.subset_insert _ P, Set.mem_insert _ _, constant_assigns h⟩
  | .name l, _, _, _, t, P, h, _ => by
    simp only [expr, bind_ok, newTemp_ok, textOf_ok, pure_ok, Prod.mk.injEq] at h
    obtain ⟨_, _, ⟨rfl, rfl⟩, _, _, ⟨rfl, rfl⟩, ⟨rfl, rfl⟩, rfl⟩ := h
    exact ⟨_, Set.subset_union_left, Or.inr (List.mem_singleton_self _),
      assigns_plain (plain_oper (Or.inr rfl)) (by simp [Instr.uses])⟩
  | .temp t, _, _, _, _, P, h, hP => by
    simp only [expr, pure_ok, Prod.mk.injEq] at h
    obtain ⟨⟨rfl, rfl⟩, rfl⟩ := h
    exact ⟨P, subset_rfl, hP _ (List.mem_singleton_self _), assigns_nil⟩
  | .mem a, _, _, _, _, P, h, hP => by
    simp only [expr, bind_ok, newTemp_ok, pure_ok, Prod.mk.injEq, Prod.exists] at h
    obtain ⟨code, v, s₁, ha, _, _, ⟨rfl, rfl⟩, ⟨rfl, rfl⟩, rfl⟩ := h
    obtain ⟨Q, hPQ, hv, hcode⟩ := expr_assigns ha hP
    exact ⟨_, hPQ.trans Set.subset_union_left, Or.inr (List.mem_singleton_self _),
      hcode.trans (assigns_plain plain_move (by simpa [Instr.uses] using hv))⟩
  | .binary op l r, _, _, _, _, P, h, hP => by
    simp only [expr, bind_ok, newTemp_ok, pure_ok, Prod.mk.injEq, Prod.exists] at h
    obtain ⟨codeL, u, s₁, hl, codeR, v, s₂, hr, _, _, ⟨rfl, rfl⟩, ⟨rfl, rfl⟩, rfl⟩ := h
    obtain ⟨Q₁, hP₁, hu, hcodeL⟩ := expr_assigns hl fun x hx => hP x (List.mem_append_left _ hx)
    obtain ⟨Q₂, hP₂, hv, hcodeR⟩ := expr_assigns hr fun x hx =>
      hP₁ (hP x (List.mem_append_right _ hx))
    exact ⟨_, hP₁.trans (hP₂.trans (Set.subset_insert _ _)), Set.mem_insert _ _,
      (hcodeL.trans hcodeR).trans (binary_assigns (hP₂ hu) hv)⟩
  | .unary op e, _, _, _, _, P, h, hP => by
    simp only [expr, bind_ok, newTemp_ok, pure_ok, Prod.mk.injEq, Prod.exists] at h
    obtain ⟨code, v, s₁, he, _, _, ⟨rfl, rfl⟩, ⟨rfl, rfl⟩, rfl⟩ := h
    obtain ⟨Q, hPQ, hv, hcode⟩ := expr_assigns he hP
    exact ⟨_, hPQ.trans Set.subset_union_left, Or.inr (List.mem_singleton_self _),
      hcode.trans (assigns_plain (plain_oper (Or.inr rfl)) (by simpa [Instr.uses] using hv))⟩
  | .call f offsets args, _, _, _, _, P, h, hP => by
    simp only [expr, bind_ok, newTemp_ok, textOf_ok, pure_ok, Prod.mk.injEq] at h
    obtain ⟨code, s₁, ha, _, s₂, ⟨rfl, rfl⟩, _, _, ⟨rfl, rfl⟩, ⟨rfl, rfl⟩, rfl⟩ := h
    obtain ⟨Q, hPQ, hcode⟩ := arguments_assigns ha hP
    have hcall := assigns_plain (Γ := Γ) (P := Q)
      (i := .oper (.call window (s₂.names.textOf f)) [] [] [f]) (plain_oper (Or.inl rfl))
      (by simp [Instr.uses])
    have hresult := assigns_plain (Γ := Γ) (P := Q ∪ {t | t ∈ []})
      (i := .oper .result [] [⟨s₂.names.temps⟩] []) (plain_oper (Or.inr rfl))
      (by simp [Instr.uses])
    exact ⟨_, hPQ.trans (Set.subset_union_left.trans Set.subset_union_left),
      Or.inr (List.mem_singleton_self _), hcode.trans (hcall.trans hresult)⟩
  | .after .., _, _, _, _, _, h, _ => by
    simp only [expr, defect_ok] at h

theorem arguments_assigns :
    ∀ {args : List Ir.Expr} {offsets : List Word} {s s' : Session} {code : List Instr}
      {P : Set Temp}, arguments window loc offsets args s = .ok code s' →
      (∀ u ∈ Ir.Expr.listTemps args, u ∈ P) →
      ∃ Q, P ⊆ Q ∧ Assigns Γ P (code.map Instr.footprint) Q
  | [], offsets, _, _, _, P, h, _ => by
    cases offsets with
    | nil | cons =>
      simp only [arguments, pure_ok] at h
      obtain ⟨rfl, rfl⟩ := h
      exact ⟨P, subset_rfl, assigns_nil⟩
  | arg :: args, [], _, _, _, P, h, _ => by
    simp only [arguments, pure_ok] at h
    obtain ⟨rfl, rfl⟩ := h
    exact ⟨P, subset_rfl, assigns_nil⟩
  | arg :: args, offset :: offsets, _, _, _, P, h, hP => by
    simp only [arguments, bind_ok, Prod.exists] at h
    obtain ⟨code, v, s₁, ha, h⟩ := h
    obtain ⟨Q₁, hP₁, hv, hcode⟩ := expr_assigns ha fun x hx => hP x (List.mem_append_left _ hx)
    have hargs : ∀ u ∈ Ir.Expr.listTemps args, u ∈ Q₁ := fun x hx =>
      hP₁ (hP x (List.mem_append_right _ hx))
    -- the argument is stored at its offset or, if that is great, by way of a constant
    split at h
    · simp only [bind_ok, pure_ok] at h
      obtain ⟨_, _, ⟨rfl, rfl⟩, rest, _, hrest, rfl, rfl⟩ := h
      obtain ⟨Q₂, hP₂, hcodes⟩ := arguments_assigns hrest hargs
      have hstore : Assigns Γ Q₁ ([Instr.oper (.storeArg offset) [v] [] []].map Instr.footprint)
          Q₁ :=
        (assigns_plain (plain_oper (Or.inr rfl)) (by simpa [Instr.uses] using hv)).mono subset_rfl
          Set.subset_union_left
      exact ⟨Q₂, hP₁.trans hP₂, (hcode.trans hstore).trans hcodes⟩
    · simp only [bind_ok, pure_ok, Prod.exists] at h
      obtain ⟨codeO, o, s₂, ho, _, _, ⟨rfl, rfl⟩, rest, _, hrest, rfl, rfl⟩ := h
      obtain ⟨Q₂, hP₂, hcodes⟩ := arguments_assigns hrest fun x hx =>
        Set.mem_insert_of_mem o (hargs x hx)
      have hstore : Assigns Γ (insert o Q₁)
          ([Instr.oper .storeArgSum [v, o] [] []].map Instr.footprint) (insert o Q₁) :=
        (assigns_plain (plain_oper (Or.inr rfl)) (by simp [Instr.uses, hv])).mono subset_rfl
          Set.subset_union_left
      exact ⟨Q₂, hP₁.trans ((Set.subset_insert _ _).trans hP₂),
        (hcode.trans ((constant_assigns ho).trans hstore)).trans hcodes⟩

end

theorem move_assigns {dst src : Ir.Expr} (h : move window loc dst src s = .ok code s')
    (hfits : (Ir.Stmt.move dst src).footprint.Fits Γ P) :
    Assigns Γ P (code.map Instr.footprint) ((Ir.Stmt.move dst src).footprint.next Γ P) := by
  -- a store keeps what was written
  have hstore : ∀ {Q : Set Temp} {v d : Temp}, v ∈ Q → d ∈ Q →
      Assigns Γ Q ([Instr.oper .store [v, d] [] []].map Instr.footprint) Q := fun hv hd =>
    (assigns_plain (plain_oper (Or.inr rfl)) (by simp [Instr.uses, hv, hd])).mono subset_rfl
      Set.subset_union_left
  -- a move into a temporary writes it
  have hset : ∀ {Q : Set Temp} {op : Op} {d v : Temp}, P ⊆ Q → v ∈ Q →
      Assigns Γ Q ([Instr.move op d v].map Instr.footprint) (P ∪ {t | t ∈ [d]}) := fun hPQ hv =>
    (assigns_plain plain_move (by simpa [Instr.uses] using hv)).mono subset_rfl
      (Set.union_subset_union_left _ hPQ)
  unfold move at h
  split at h
  · next dst src =>
    simp only [bind_ok, newTemp_ok, pure_ok, Prod.exists] at h
    obtain ⟨codeS, u, s₁, hs, codeD, d, s₂, hd, _, _, ⟨rfl, rfl⟩, rfl, -⟩ := h
    obtain ⟨Q₁, hP₁, hu, hcodeS⟩ := expr_assigns hs fun x hx =>
      hfits.reads x (List.mem_append_right _ hx)
    obtain ⟨Q₂, hP₂, hd', hcodeD⟩ := expr_assigns hd fun x hx =>
      hP₁ (hfits.reads x (List.mem_append_left _ hx))
    have hload : Assigns Γ Q₂ ([Instr.move .load ⟨s₂.names.temps⟩ u].map Instr.footprint)
        (Q₂ ∪ {t | t ∈ [⟨s₂.names.temps⟩]}) :=
      assigns_plain plain_move (by simpa [Instr.uses] using hP₂ hu)
    have hall := (hcodeS.trans hcodeD).trans (hload.trans
      (hstore (Or.inr (List.mem_singleton_self _)) (Or.inl hd')))
    refine hall.mono subset_rfl ?_
    simpa [Footprint.next, Ir.Stmt.footprint] using
      (hP₁.trans hP₂).trans (Set.subset_insert ⟨s₂.names.temps⟩ Q₂)
  · simp only [bind_ok, pure_ok, Prod.exists] at h
    obtain ⟨codeS, v, s₁, hs, codeD, d, s₂, hd, rfl, -⟩ := h
    obtain ⟨Q₁, hP₁, hv, hcodeS⟩ := expr_assigns hs fun x hx =>
      hfits.reads x (List.mem_append_right _ hx)
    obtain ⟨Q₂, hP₂, hd', hcodeD⟩ := expr_assigns hd fun x hx =>
      hP₁ (hfits.reads x (List.mem_append_left _ hx))
    refine ((hcodeS.trans hcodeD).trans (hstore (hP₂ hv) hd')).mono subset_rfl ?_
    simpa [Footprint.next, Ir.Stmt.footprint] using hP₁.trans hP₂
  · simp only [bind_ok, pure_ok, Prod.exists] at h
    obtain ⟨codeS, u, s₁, hs, rfl, -⟩ := h
    obtain ⟨Q, hPQ, hu, hcode⟩ := expr_assigns hs hfits.reads
    exact hcode.trans (hset hPQ hu)
  · simp only [bind_ok, pure_ok, Prod.exists] at h
    obtain ⟨codeS, u, s₁, hs, rfl, -⟩ := h
    obtain ⟨Q, hPQ, hu, hcode⟩ := expr_assigns hs hfits.reads
    exact hcode.trans (hset hPQ hu)
  · simp only [defect_ok] at h

theorem stmt_assigns {st : Ir.Stmt} (hst : st.isCanonical) (h : stmt window loc st s = .ok code s')
    (hfits : st.footprint.Fits Γ P) :
    Assigns Γ P (code.map Instr.footprint) (st.footprint.next Γ P) := by
  cases st with
  | seq ss => cases hst
  | label l =>
    simp only [stmt, pure_ok] at h
    obtain ⟨rfl, -⟩ := h
    exact ⟨hfits, subset_rfl⟩
  | jump l =>
    simp only [stmt, bind_ok, pure_ok] at h
    obtain ⟨_, _, -, rfl, -⟩ := h
    exact ⟨hfits, subset_rfl⟩
  | eval e =>
    simp only [stmt, bind_ok, pure_ok, Prod.exists] at h
    obtain ⟨code, t, s₁, he, rfl, -⟩ := h
    obtain ⟨Q, hPQ, -, hcode⟩ := expr_assigns he hfits.reads
    exact hcode.mono subset_rfl (by simpa [Footprint.next, Ir.Stmt.footprint] using hPQ)
  | branch c pos neg =>
    simp only [stmt, bind_ok, pure_ok, Prod.exists] at h
    obtain ⟨code, v, s₁, hc, name, _, -, rfl, -⟩ := h
    obtain ⟨Q, hPQ, hv, hcode⟩ := expr_assigns hc hfits.reads
    refine hcode.trans
      ⟨⟨by simpa [Instr.footprint, Instr.uses] using hv, ?_, by simp [Instr.footprint]⟩,
      subset_rfl⟩
    exact fun l hl => (hfits.goals l hl).trans hPQ
  | move dst src => exact move_assigns h hfits

theorem stmts_assigns :
    ∀ {ss : List Ir.Stmt} {s s' : Session} {code : List Instr} {P : Set Temp}, Ir.isCanonical ss →
      stmts window loc ss s = .ok code s' → Assigns Γ P (ss.map Ir.Stmt.footprint) Q →
      Assigns Γ P (code.map Instr.footprint) Q
  | [], _, _, _, _, _, h, hP => by
    simp only [stmts, pure_ok] at h
    obtain ⟨rfl, -⟩ := h
    exact hP
  | st :: ss, _, _, _, _, hcanon, h, hP => by
    rw [Ir.isCanonical_cons, Bool.and_eq_true] at hcanon
    simp only [stmts, bind_ok, pure_ok] at h
    obtain ⟨code, s₁, hst, rest, _, hss, rfl, -⟩ := h
    exact (stmt_assigns hcanon.1 hst hP.1).trans (stmts_assigns hcanon.2 hss hP.2)

end

end Selection

/-! ## Spills -/

def Written.without (Γ : Written) (t : Temp) : Written := fun l => Γ l \ {t}

theorem assigns_loadSlot {Γ : Written} {P : Set Temp} {fp offset value : Temp} {slot : Word}
    (hfp : fp ∈ P) :
    Assigns Γ P ((loadSlot fp slot offset value).map Instr.footprint)
      (insert value (insert offset P)) := by
  have hload : Assigns Γ (insert offset P)
      ([Instr.oper .loadSum [fp, offset] [value] []].map Instr.footprint)
      (insert value (insert offset P)) :=
    (assigns_plain (plain_oper (Or.inr rfl)) (by simp [Instr.uses, hfp])).mono subset_rfl
      (by simp [Instr.defs])
  exact (assigns_loadConstant offset slot).trans hload

theorem assigns_storeSlot {Γ : Written} {P : Set Temp} {fp offset value : Temp} {slot : Word}
    (hfp : fp ∈ P) (hvalue : value ∈ P) :
    Assigns Γ P ((storeSlot fp slot offset value).map Instr.footprint) P := by
  have hstore : Assigns Γ (insert offset P)
      ([Instr.oper .storeSum [value, fp, offset] [] []].map Instr.footprint) P :=
    (assigns_plain (plain_oper (Or.inr rfl)) (by simp [Instr.uses, hfp, hvalue])).mono subset_rfl
      ((Set.subset_insert _ _).trans Set.subset_union_left)
  exact (assigns_loadConstant offset slot).trans hstore

namespace Spill

variable {s : Spill} {i : Instr} {Γ : Written} {P Q : Set Temp} {n : Nat}

/-- The load before an instruction leaves what the instruction then reads. -/
theorem reads_assigns (hne : s.fp ≠ s.temp) (hfp : s.fp ∈ P) (huses : ∀ u ∈ i.uses, u ∈ P)
    (written : Temp) :
    ∃ Q, P \ {s.temp} ⊆ Q ∧
      (∀ u ∈ (i.replace s.temp (s.reads i n).2.1 written).uses, u ∈ Q) ∧
      Assigns Γ (P \ {s.temp}) ((s.reads i n).1.map Instr.footprint) Q := by
  have hother : ∀ {u}, u ∈ i.uses → u ≠ s.temp → u ∈ P \ {s.temp} := fun hu hne =>
    ⟨huses _ hu, hne⟩
  unfold reads
  split
  · refine ⟨_, ?_, fun u hu => ?_, assigns_loadSlot ⟨hfp, hne⟩⟩
    · exact (Set.subset_insert _ _).trans (Set.subset_insert _ _)
    · rcases Instr.mem_uses_replace.mp hu with ⟨rfl, -⟩ | ⟨hu, hne⟩
      · exact Set.mem_insert _ _
      · exact Set.mem_insert_of_mem _ (Set.mem_insert_of_mem _ (hother hu hne))
  · next hnot =>
    refine ⟨_, subset_rfl, fun u hu => ?_, assigns_nil⟩
    rcases Instr.mem_uses_replace.mp hu with ⟨-, ht⟩ | ⟨hu, hne⟩
    · exact absurd ht hnot
    · exact hother hu hne

/-- The store after an instruction reads what the instruction wrote. -/
theorem writes_assigns (hfp : s.fp ∈ Q) (hwritten : s.temp ∈ i.defs → (s.writes i n).2.1 ∈ Q) :
    Assigns Γ Q ((s.writes i n).1.map Instr.footprint) Q := by
  unfold writes at hwritten ⊢
  split
  · next hd =>
    rw [if_pos hd] at hwritten
    exact assigns_storeSlot hfp (hwritten hd)
  · exact assigns_nil

/-- An instruction with the temporary replaced goes where it went, and writes what it wrote but for
that temporary. -/
theorem next_replace {read written : Temp} (hP : P \ {s.temp} ⊆ Q) :
    i.footprint.next Γ P \ {s.temp} ⊆
      (i.replace s.temp read written).footprint.next (Γ.without s.temp) Q := by
  have hmark : (i.replace s.temp read written).footprint.mark = i.footprint.mark := by
    cases i <;> rfl
  have hgoals : (i.replace s.temp read written).footprint.goals = i.footprint.goals := by
    cases i <;> rfl
  unfold Footprint.next
  rw [hmark, hgoals]
  split
  · exact subset_rfl
  · split
    · rintro u ⟨hu | hu, hne⟩
      · exact Or.inl (hP ⟨hu, hne⟩)
      · exact Or.inr (Instr.mem_defs_replace.mpr (Or.inr ⟨hu, hne⟩))
    · exact Set.subset_univ _

theorem mem_next_of_mem_defs {u : Temp} (hu : u ∈ i.defs) : u ∈ i.footprint.next Γ P := by
  cases i with
  | label l => cases hu
  | oper op us ds js =>
    show u ∈ (if _ then _ else _)
    split
    · exact Or.inr hu
    · trivial
  | move op d v => exact Or.inr hu

/-- A spill keeps what an instruction writes, but for the temporary that is spilled. -/
theorem code_assigns (hne : s.fp ≠ s.temp) (hΓ : ∀ l, s.fp ∈ Γ l) (hfp : s.fp ∈ P)
    (hfits : i.footprint.Fits Γ P) :
    Assigns (Γ.without s.temp) (P \ {s.temp}) ((s.code i n).map Instr.footprint)
      (i.footprint.next Γ P \ {s.temp}) := by
  let r := s.reads i n
  let w := s.writes i (n + r.2.2.length)
  obtain ⟨Q, hPQ, huses, hreads⟩ :=
    reads_assigns (Γ := Γ.without s.temp) (n := n) hne hfp hfits.reads
    w.2.1
  have hnext : i.footprint.next Γ P \ {s.temp} ⊆
      (i.replace s.temp r.2.1 w.2.1).footprint.next (Γ.without s.temp) Q := next_replace hPQ
  have hkeep : ∀ {l}, Γ l ⊆ P → Γ.without s.temp l ⊆ Q := fun hl u hu => hPQ ⟨hl hu.1, hu.2⟩
  refine hreads.trans ⟨⟨huses, fun l hl => hkeep (hfits.goals l ?_), fun l hl =>
    hkeep (hfits.mark l ?_)⟩, (writes_assigns ?_ fun hd => ?_).mono subset_rfl hnext⟩
  · cases i <;> exact hl
  · cases i <;> exact hl
  · exact hnext ⟨Footprint.mem_next hΓ hfp, hne⟩
  · exact mem_next_of_mem_defs (Instr.mem_defs_replace.mpr (Or.inl ⟨rfl, hd⟩))

theorem codes_assigns (hne : s.fp ≠ s.temp) (hΓ : ∀ l, s.fp ∈ Γ l) :
    ∀ {is : List Instr} {n : Nat} {P : Set Temp}, s.fp ∈ P →
      Assigns Γ P (is.map Instr.footprint) Q →
      Assigns (Γ.without s.temp) (P \ {s.temp}) ((s.codes is n).map Instr.footprint) (Q \ {s.temp})
  | [], _, _, _, h => fun _ hu => ⟨h hu.1, hu.2⟩
  | _ :: _, _, _, hfp, h =>
    (code_assigns hne hΓ hfp h.1).trans (codes_assigns hne hΓ (Footprint.mem_next hΓ hfp) h.2)

end Spill

namespace Code

/-! ## Allocated code -/

variable {c c' : Code} {t : Temp}

/-- In the code the frame pointer alone is read before it is written, and the result, unless it was
spilled, is written on every way to the exit. -/
def Assigned (c : Code) : Prop :=
  ∃ Γ : Written, (∀ l, c.frame.fp ∈ Γ l) ∧ (c.frame.rv ∉ c.slots → c.frame.rv ∈ Γ c.exit) ∧
    Assigns Γ {c.frame.fp} (c.instrs.map Instr.footprint) ∅

theorem Assigned.spilled (h : c.Assigned) (hne : t ≠ c.frame.fp) (offset spillSize : Word)
    (n : Nat) :
    (c.spilled t offset spillSize n).Assigned := by
  obtain ⟨Γ, hfp, hrv, hcode⟩ := h
  refine ⟨Γ.without t, fun l => ⟨hfp l, Ne.symm hne⟩, fun hslots => ?_, ?_⟩
  · rw [Table.mem_insert, not_or] at hslots
    exact ⟨hrv hslots.2, Ne.symm hslots.1⟩
  · have hspilled := Spill.codes_assigns (s := c.spillAt t offset) (n := n) (Ne.symm hne) hfp
      (Set.mem_singleton _) hcode
    exact hspilled.mono (fun u hu => hu.1) (Set.empty_subset _)

theorem spill_ne_fp {k : Nat} {repair : TempSet} (hne : c.frame.fp ≠ c.frame.rv)
    (h : t ∈ (c.colored k repair).2) : t ≠ c.frame.fp := by
  rcases mem_vertices_interference.mp (mem_vertices_of_spill h) with ⟨hfp, -⟩ | hrv
  · exact hfp
  · exact (mem_liveAtExit.mp hrv).1 ▸ hne.symm

/-- Allocation keeps code in which temporaries are written before they are read. -/
theorem Assigned.allocate {k : Nat} {st st' : Session} {a : Allocation} (h : c.Assigned)
    (hne : c.frame.fp ≠ c.frame.rv) (hok : c.allocate k st = .ok a st') :
    a.code.Assigned ∧ a.code.frame = c.frame := by
  obtain ⟨-, -, hrounds⟩ := allocate_ok hok
  let P (c₁ : Code) (_ : Names) : Prop := c₁.Assigned ∧ c₁.frame = c.frame
  refine (allocateRounds_induction (P := P) ?_ ⟨h, rfl⟩ hrounds).1
  rintro c₁ c₂ repair repair' st₁ st₂ ⟨h₁, hframe⟩ hspill
  refine spillAll_induction (P := P) ?_ ⟨h₁, hframe⟩ hspill
  rintro c₃ st₃ t offset spillSize ht - ⟨h₃, hframe₃⟩
  have hfp : t ≠ c₃.frame.fp := by
    rw [hframe₃, ← hframe]
    exact spill_ne_fp (hframe ▸ hne) ht
  exact ⟨h₃.spilled hfp offset spillSize _, hframe₃⟩

/-! ## What is live at the start -/

/-- What was written on every way to a position. -/
def writtenBefore (Γ : Written) (P : Set Temp) (is : List Instr) (i : Nat) : Set Temp :=
  (is.take i).foldl (fun P i => i.footprint.next Γ P) P

/-- What may be live before a position: at a label, what is written down for it. -/
def mayLive (Γ : Written) (P : Set Temp) (is : List Instr) (i : Nat) : Set Temp :=
  match is[i]? with
  | some (.label l) => Γ l
  | _ => writtenBefore Γ P is i

section Written

variable {Γ : Written} {P Q : Set Temp} {is : List Instr} {i : Nat} {instr : Instr}

theorem writtenBefore_succ (hi : is[i]? = some instr) :
    writtenBefore Γ P is (i + 1) = instr.footprint.next Γ (writtenBefore Γ P is i) := by
  rw [writtenBefore, List.take_add_one, hi, Option.toList_some, List.foldl_append]
  rfl

theorem fits_of_assigns : ∀ {is : List Instr} {P : Set Temp} {i : Nat},
    Assigns Γ P (is.map Instr.footprint) Q → is[i]? = some instr →
    instr.footprint.Fits Γ (writtenBefore Γ P is i)
  | _ :: _, _, 0, h, hi => by
    cases hi
    exact h.1
  | _ :: _, _, i + 1, h, hi => fits_of_assigns (i := i) h.2 hi

theorem mayLive_subset (h : Assigns Γ P (is.map Instr.footprint) Q) :
    mayLive Γ P is i ⊆ writtenBefore Γ P is i := by
  unfold mayLive
  split
  · next l hi => exact (fits_of_assigns h hi).mark l rfl
  · exact subset_rfl

/-- At an instruction that is no label this is what was written. -/
theorem mayLive_of_mark (hi : is[i]? = some instr) (hmark : instr.footprint.mark = none) :
    mayLive Γ P is i = writtenBefore Γ P is i := by
  unfold mayLive
  split
  · next l hl =>
    cases hi.symm.trans hl
    cases hmark
  · rfl

end Written

/-- What was written on every way is closed under the flow. -/
theorem closed_mayLive {Γ : Written} {P Q : Set Temp}
    (h : Assigns Γ P (c.instrs.map Instr.footprint) Q)
    (hrv : c.frame.rv ∉ c.slots → c.frame.rv ∈ Γ c.exit) :
    c.flow.Closed (fun i t => t ∈ mayLive Γ P c.instrs i)
      (fun i t => ∃ p, c.Follows i p ∧ c.flow.before (fun i t => t ∈ mayLive Γ P c.instrs i) p t)
    where
  flows i p hp t ht := ⟨p, mem_flow_successors.mp hp, ht⟩
  uses i instr hi t ht := by
    have hi : c.instrs[i]? = some instr := by simpa using hi
    have hmark : instr.footprint.mark = none := by
      cases instr with
      | label l => cases ht
      | oper | move => rfl
    rw [mayLive_of_mark hi hmark]
    exact (fits_of_assigns h hi).reads t ht
  through i instr hi t ht hd := by
    have hi : c.instrs[i]? = some instr := by simpa using hi
    obtain ⟨p, hp, hlive⟩ := ht
    have hfits := fits_of_assigns h hi
    -- an instruction that goes to a label is none
    have hgoes : ∀ {instr' l}, c.instrs[i]? = some instr' → ¬ instr'.isCall → l ∈ instr'.jumps →
        Γ l ⊆ mayLive Γ P c.instrs i := by
      intro instr' l hi' hcall hl
      cases hi.symm.trans hi'
      have hmark : instr.footprint.mark = none := by
        cases instr with
        | label l => cases hl
        | oper | move => rfl
      rw [mayLive_of_mark hi hmark]
      refine hfits.goals l ?_
      simpa [Instr.footprint, hcall] using hl
    cases hp with
    | @next instr' hi' hnext hlt =>
      cases hi.symm.trans hi'
      have hnow := mayLive_subset h hlive
      rw [writtenBefore_succ hi] at hnow
      cases instr with
      | label l =>
        unfold mayLive
        rw [hi]
        exact hnow
      | oper op us ds js =>
        rw [mayLive_of_mark hi rfl]
        have hplain : (Instr.oper op us ds js).Plain := plain_oper (Or.symm hnext)
        rw [hplain.next] at hnow
        exact hnow.resolve_right hd
      | move op d u =>
        rw [mayLive_of_mark hi rfl]
        exact Or.resolve_right (plain_move.next.subset hnow) hd
    | @jump instr' l j hi' hcall hl hne hj =>
      refine hgoes hi' hcall hl ?_
      have hlabel := hj.1
      simp only [Flow.before, mayLive, hlabel] at hlive
      exact hlive
    | @leave instr' hi' hcall hl =>
      obtain ⟨rfl, hslots⟩ := mem_liveAtExit.mp hlive
      exact hgoes hi' hcall hl (hrv hslots)

/-- Only the frame pointer is live before the first instruction. -/
theorem Assigned.live_start (h : c.Assigned) (hlive : c.isLiveIn 0 t) : t = c.frame.fp := by
  obtain ⟨Γ, -, hrv, hcode⟩ := h
  have hmay := (liveness_below (closed_mayLive hcode hrv) 0 t).1 hlive
  exact mayLive_subset hcode hmay

/-- Only the frame pointer is live at the start: on every path from there each other temporary is
written before it is read, the result at the exit included. -/
structure WritesFirst (c : Code) : Prop where
  live : ∀ t, c.isLiveIn 0 t → t = c.frame.fp
  paths : ∀ t ≠ c.frame.fp, ∀ passed q, c.Path (.instr 0) passed q → c.Reads t q →
    ∃ i ∈ passed, c.Writes t i

theorem Assigned.writesFirst (h : c.Assigned) : c.WritesFirst where
  live _ := h.live_start
  paths t hne passed q hpath hread := by
    by_contra hnone
    have hkeep : ∀ i ∈ passed, ¬ c.Writes t i := fun i hi hw => hnone ⟨i, hi, hw⟩
    exact hne (h.live_start (isLiveIn_iff.mpr ⟨passed, q, hpath, hkeep, hread⟩))

end Code

/-! ## Compiled programs -/

theorem CodeChunk.Assigned.select {chunk : CodeChunk} {window : Nat} {s s' : Session} {c : Code}
    (h : chunk.Assigned) (hform : Ir.isCanonical chunk.stmts)
    (hok : chunk.select window s = .ok c s') : c.Assigned := by
  obtain ⟨Γ, hfp, hrv, hstmts⟩ := h
  obtain ⟨hexit, s₁, hcode⟩ := CodeChunk.select_stmts hok
  obtain ⟨-, hframe, -⟩ := CodeChunk.select_ok hok
  rw [← hframe] at hfp hrv hstmts
  exact ⟨Γ, hfp, fun _ => hexit ▸ hrv, Selection.stmts_assigns hform hcode hstmts⟩

namespace Typed

/-- The chunks of a compiled program write temporaries before they read them. -/
theorem Program.compile_assigned {p : Program} {s₀ s : Session} {c : Compiled}
    (h : p.compile s₀ = .ok c s) (hids : (Lowering.ids (Decl.listThroughout p.decls)).Nodup) :
    ∀ chunk ∈ c.chunks.code, chunk.Assigned := by
  obtain ⟨s₁, s₂, -, hlower, hchunks⟩ := Program.compile_ok h
  intro chunk hchunk
  obtain ⟨f, hf, r, r', hbuild, hler, -⟩ :=
    exists_rel_of_mem (Program.chunksOf hchunks).code chunk hchunk
  have hbodies := ((Lowering.functions_lowers hlower).fills hids).bodies
  exact CodeChunk.build_assigned hbuild (hbodies f hf).1 hler

/-- In the code selected for each function of a compiled program, and in what allocation makes of
it, no temporary but the frame pointer is read before it is written. -/
theorem Program.compile_writesFirst {p : Program} {s₀ s : Session} {c : Compiled}
    (h : p.compile s₀ = .ok c s) (hids : (Lowering.ids (Decl.listThroughout p.decls)).Nodup)
    (hheads : (p.heads.map (·.id)).Nodup) :
    ∀ chunk ∈ c.chunks.code, ∀ window s₁, ∃ code s₂, chunk.select window s₁ = .ok code s₂ ∧
      code.WritesFirst ∧
      ∀ k s₃ a s₄, code.allocate k s₃ = .ok a s₄ → a.code.WritesFirst := by
  intro chunk hchunk window s₁
  obtain ⟨hdrawn, hform⟩ := Program.compile_drawn h hids hheads chunk hchunk
  obtain ⟨code, s₂, hselect⟩ := chunk.exists_select hform window s₁
  have hassigned := (Program.compile_assigned h hids chunk hchunk).select hform hselect
  refine ⟨code, s₂, hselect, hassigned.writesFirst, fun k s₃ a s₄ hok => ?_⟩
  have hapart : code.frame.fp ≠ code.frame.rv := by
    obtain ⟨-, hframe, -⟩ := CodeChunk.select_ok hselect
    exact hframe ▸ hdrawn.apart
  exact (hassigned.allocate hapart hok).1.writesFirst

/-- `x + (x + { if x then x = 0; x })`: both left operands are kept across a branch. -/
def choosing : Program where
  decls := [.fn ⟨⟨0⟩, "main", [], .int, {}⟩ (.scope (.value 0)
    (.binary (.value 1) .add (.name (.place 2) ⟨1⟩)
      (.binary (.value 3) .add (.name (.place 4) ⟨1⟩)
        (.block (.value 5) [
          .cond ⟨⟨20⟩, {}⟩ (.name (.place 6) ⟨1⟩)
            [.assign ⟨⟨21⟩, {}⟩ (.name (.place 7) ⟨1⟩) (.atom (.value 8) (.int 0))] [],
          .eval ⟨⟨22⟩, {}⟩ (.name (.place 9) ⟨1⟩)])))
    [.var ⟨⟨1⟩, "x", .int, {}⟩])]

/-- It is one function; three registers are too few for it, and one temporary is spilled. -/
theorem exists_choosing : ∃ c s chunk code s₁ a s₂ lines s₃, choosing.compile {} = .ok c s ∧
    c.chunks.code = [chunk] ∧ chunk.select 3 s = .ok code s₁ ∧ code.allocate 3 s₁ = .ok a s₂ ∧
    Assembly.program c.chunks.data [a] 3 s₂ = .ok lines s₃ ∧ a.code.slots.size = 1 := by
  have hrun : ∃ c s, choosing.compile {} = .ok c s ∧ c.chunks.code.length = 1 ∧
      ∃ chunk ∈ c.chunks.code, ∃ size s₃, (do
        let code ← chunk.select 3
        let a ← code.allocate 3
        let _ ← Assembly.program c.chunks.data [a] 3
        return a.code.slots.size : Build Nat) s = .ok size s₃ ∧ size = 1 := by
    decide +kernel
  obtain ⟨c, s, hc, hone, chunk, hchunk, size, s₃, hrun, hsize⟩ := hrun
  obtain ⟨only, honly⟩ := List.length_eq_one_iff.mp hone
  obtain rfl := List.mem_singleton.mp (honly ▸ hchunk)
  obtain ⟨code, s₁, hselect, hrun⟩ := bind_ok.mp hrun
  obtain ⟨a, s₂, hallocate, hrun⟩ := bind_ok.mp hrun
  obtain ⟨lines, s₄, hprogram, hrun⟩ := bind_ok.mp hrun
  obtain ⟨rfl, -⟩ := pure_ok.mp hrun
  exact ⟨c, s, chunk, code, s₁, a, s₂, lines, s₄, hc, honly, hselect, hallocate, hprogram, hsize⟩

theorem compile_writesFirst_choosing :
    (Lowering.ids (Decl.listThroughout choosing.decls)).Nodup ∧
      (choosing.heads.map (·.id)).Nodup ∧
      ∃ c s, choosing.compile {} = .ok c s ∧ ∃ chunk ∈ c.chunks.code,
        ∃ code s₁, chunk.select 3 s = .ok code s₁ ∧ code.WritesFirst ∧
          ∃ a s₂, code.allocate 3 s₁ = .ok a s₂ ∧ a.code.slots.size = 1 ∧ a.code.WritesFirst := by
  obtain ⟨c, s, chunk, code, s₁, a, s₂, -, -, hc, hone, hselect, hallocate, -, hsize⟩ :=
    exists_choosing
  have hchunk : chunk ∈ c.chunks.code := hone ▸ List.mem_singleton_self chunk
  have hids : (Lowering.ids (Decl.listThroughout choosing.decls)).Nodup := by decide
  have hheads : (choosing.heads.map (·.id)).Nodup := by decide
  obtain ⟨code', s', hselect', hfirst, hall⟩ :=
    Program.compile_writesFirst hc hids hheads chunk hchunk 3 s
  cases hselect.symm.trans hselect'
  exact ⟨hids, hheads, c, s, hc, chunk, hchunk, code, s₁, hselect, hfirst, a, s₂, hallocate, hsize,
    hall 3 s₁ a s₂ hallocate⟩

end Typed

end MmixBackend
