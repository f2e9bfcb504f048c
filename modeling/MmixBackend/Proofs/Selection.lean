import MmixBackend.Proofs.Canonical
import MmixBackend.Proofs.Spilling
import MmixBackend.Target.Selection

/-!
# Selected instructions

What the code selected for a chunk looks like, whatever the chunk: an instruction reads at most
two temporaries and writes at most one, and each of them stands in the chunk or was handed out
meanwhile.  Those that are written stand as the target of a move, or are new.  An instruction that
adds a wyde to a register works on one temporary: it reads it and writes it.
-/

namespace MmixBackend

open Build

/-! ## Temporaries of intermediate code -/

namespace Ir

mutual

/-- The temporaries of an expression. -/
def Expr.temps : Expr → List Temp
  | .const _ | .name _ => []
  | .temp t => [t]
  | .mem a => a.temps
  | .binary _ l r => l.temps ++ r.temps
  | .unary _ e => e.temps
  | .call _ _ args => Expr.listTemps args
  | .after s e => s.temps ++ e.temps

def Expr.listTemps : List Expr → List Temp
  | [] => []
  | e :: es => e.temps ++ Expr.listTemps es

def Stmt.temps : Stmt → List Temp
  | .move dst src => dst.temps ++ src.temps
  | .eval e => e.temps
  | .branch c _ _ => c.temps
  | .jump _ | .label _ => []
  | .seq ss => Stmt.listTemps ss

def Stmt.listTemps : List Stmt → List Temp
  | [] => []
  | s :: ss => s.temps ++ Stmt.listTemps ss

end

mutual

/-- The temporaries that a statement moves a value into. -/
def Stmt.targets : Stmt → List Temp
  | .move (.temp t) _ => [t]
  | .seq ss => Stmt.listTargets ss
  | .move .. | .eval _ | .branch .. | .jump _ | .label _ => []

def Stmt.listTargets : List Stmt → List Temp
  | [] => []
  | s :: ss => s.targets ++ Stmt.listTargets ss

end

mutual

theorem Stmt.targets_subset : ∀ {st : Stmt}, st.targets ⊆ st.temps
  | .move (.temp _) _ => List.subset_append_left _ _
  | .seq _ => Stmt.listTargets_subset
  | .move (.const _) _ | .move (.name _) _ | .move (.mem _) _ | .move (.binary ..) _
  | .move (.unary ..) _ | .move (.call ..) _ | .move (.after ..) _ | .eval _ | .branch ..
  | .jump _ | .label _ => List.nil_subset _

theorem Stmt.listTargets_subset : ∀ {ss : List Stmt}, Stmt.listTargets ss ⊆ Stmt.listTemps ss
  | [] => List.nil_subset _
  | _ :: _ => List.append_subset.mpr
      ⟨List.Subset.trans Stmt.targets_subset (List.subset_append_left _ _),
        List.Subset.trans Stmt.listTargets_subset (List.subset_append_right _ _)⟩

end

end Ir

namespace Selection

/-! ## One instruction -/

/-- A temporary that was handed out meanwhile. -/
def New (n n' : Names) (t : Temp) : Prop := n.temps ≤ t.index ∧ t.index < n'.temps

/-- The instruction reads and writes few temporaries, all of them known or new, and if it adds a
wyde it works on one. -/
structure Selected (read written : List Temp) (marks : List Label) (n n' : Names) (i : Instr) :
    Prop where
  uses : ∀ u ∈ i.uses, u ∈ read ∨ New n n' u
  defs : ∀ d ∈ i.defs, d ∈ written ∨ New n n' d
  few : i.uses.length ≤ 2 ∧ i.defs.length ≤ 1
  pair : ∀ ⦃place m us ds js⦄, i = .oper (.increase place m) us ds js →
    ∃ t, us = [t] ∧ ds = [t] ∧ js = []
  mark : ∀ ⦃l⦄, i = .label l → l ∈ marks

/-- Code of such instructions, and names that only grew. -/
structure Picks (read written : List Temp) (marks : List Label) (n n' : Names)
    (code : List Instr) : Prop where
  names : n ≤ n'
  instrs : ∀ i ∈ code, Selected read written marks n n' i

section

variable {read written : List Temp} {marks : List Label} {n n₁ n' : Names}
  {code code' : List Instr} {t u v : Temp}

theorem New.mono (h : New n n' t) {m m' : Names} (hm : m ≤ n) (hm' : n' ≤ m') : New m m' t :=
  ⟨Nat.le_trans (Names.temps_le hm) h.1, Nat.lt_of_lt_of_le h.2 (Names.temps_le hm')⟩

theorem new_newTemp (n : Names) : New n n.newTemp.2 ⟨n.temps⟩ :=
  ⟨Nat.le_refl _, Nat.lt_succ_self _⟩

theorem Selected.mono {i : Instr} (h : Selected read written marks n n' i) {m m' : Names} (hm : m ≤ n)
    (hm' : n' ≤ m') : Selected read written marks m m' i where
  uses u hu := (h.uses u hu).imp_right fun hnew => hnew.mono hm hm'
  defs d hd := (h.defs d hd).imp_right fun hnew => hnew.mono hm hm'
  few := h.few
  pair := h.pair
  mark := h.mark

theorem picks_nil (h : n ≤ n') : Picks read written marks n n' [] :=
  ⟨h, fun i hi => by cases hi⟩

theorem Picks.append (h : Picks read written marks n n₁ code)
    (h' : Picks read written marks n₁ n' code') :
    Picks read written marks n n' (code ++ code') where
  names := Names.le_trans h.names h'.names
  instrs := List.forall_mem_append.mpr
    ⟨fun i hi => (h.instrs i hi).mono (Names.le_refl n) h'.names,
      fun i hi => (h'.instrs i hi).mono h.names (Names.le_refl n')⟩

theorem Picks.snoc (h : Picks read written marks n n₁ code) (hle : n₁ ≤ n')
    (hi : ∀ i ∈ code', Selected read written marks n n' i) :
    Picks read written marks n n' (code ++ code') where
  names := Names.le_trans h.names hle
  instrs := List.forall_mem_append.mpr
    ⟨fun i hi => (h.instrs i hi).mono (Names.le_refl n) hle, hi⟩

theorem selected_oper {op : Op} {uses defs : List Temp} {jumps : List Label}
    (hop : ∀ place m, op ≠ .increase place m)
    (huses : ∀ u ∈ uses, u ∈ read ∨ New n n' u) (hdefs : ∀ d ∈ defs, d ∈ written ∨ New n n' d)
    (hfew : uses.length ≤ 2 ∧ defs.length ≤ 1) :
    Selected read written marks n n' (.oper op uses defs jumps) where
  uses := huses
  defs := hdefs
  few := hfew
  pair := by
    rintro place m us ds js h
    cases h
    exact absurd rfl (hop place m)
  mark := nofun

theorem selected_move {op : Op} (hu : u ∈ read ∨ New n n' u) (ht : t ∈ written ∨ New n n' t) :
    Selected read written marks n n' (.move op t u) where
  uses := by
    intro w hw
    rwa [List.mem_singleton.mp hw]
  defs := by
    intro w hw
    rwa [List.mem_singleton.mp hw]
  few := ⟨by simp [Instr.uses], by simp [Instr.defs]⟩
  pair := nofun
  mark := nofun

theorem selected_loadConstant (ht : New n n' t) (c : Word) :
    ∀ i ∈ loadConstant t c, Selected read written marks n n' i := by
  intro i hi
  obtain ⟨huses, hdefs, -, -⟩ := mem_loadConstant hi
  obtain ⟨step, -, rfl⟩ := List.mem_map.mp hi
  refine ⟨fun u hu => Or.inr (huses u hu ▸ ht), fun d hd => Or.inr ?_, ?_, ?_, ?_⟩
  · rw [hdefs] at hd
    exact List.mem_singleton.mp hd ▸ ht
  · cases step <;> simp [ConstantStep.instr, Instr.uses, Instr.defs]
  · rintro place m us ds js h
    cases step <;> cases h
    exact ⟨t, rfl, rfl, rfl⟩
  · rintro l h
    cases step <;> cases h

theorem selected_binary {op : BinOp} (hu : u ∈ read ∨ New n n' u) (hv : v ∈ read ∨ New n n' v)
    (ht : New n n' t) : ∀ i ∈ binary op u v t, Selected read written marks n n' i := by
  have hresult : ∀ d ∈ [t], d ∈ written ∨ New n n' d := fun d hd =>
    Or.inr (List.mem_singleton.mp hd ▸ ht)
  have hboth : ∀ op : Op, (∀ place m, op ≠ .increase place m) →
      Selected read written marks n n' (.oper op [u, v] [t] []) := fun _ hop =>
    selected_oper hop (by simp [hu, hv]) hresult (by simp)
  unfold binary
  split
  · have htest : Selected read written marks n n' (.oper (.test (testOf op)) [t] [t] []) :=
      selected_oper (by simp) (by simp [ht]) hresult (by simp)
    simpa using ⟨hboth .compare (by simp), htest⟩
  · split
    · have hrest : Selected read written marks n n' (.oper .remainder [] [t] []) :=
        selected_oper (by simp) (by simp) hresult (by simp)
      simpa using ⟨hboth (.arith .div) (by simp), hrest⟩
    · simpa using hboth (.arith (arithOf op)) (by simp)

end

/-! ## Expressions and statements -/

section

variable {read written : List Temp} {marks : List Label} {window : Nat} {loc : Location}

variable {code : List Instr} {s s' : Session}

theorem constant_picks {v : Word} {t : Temp} (h : constant v s = .ok (code, t) s') :
    Picks read written marks s.names s'.names code ∧ New s.names s'.names t := by
  simp only [constant, bind_ok, newTemp_ok, pure_ok, Prod.mk.injEq] at h
  obtain ⟨_, _, ⟨rfl, rfl⟩, ⟨rfl, rfl⟩, rfl⟩ := h
  exact ⟨⟨Names.le_newTemp _, selected_loadConstant (new_newTemp _) v⟩, new_newTemp _⟩

mutual

/-- The code of an expression, and the temporary with its value. -/
theorem expr_picks :
    ∀ {e : Ir.Expr} {s s' : Session} {code : List Instr} {t : Temp},
      expr window loc e s = .ok (code, t) s' → e.temps ⊆ read →
      Picks read written marks s.names s'.names code ∧ (t ∈ read ∨ New s.names s'.names t)
  | .const v, _, _, _, _, h, _ => by
    obtain ⟨hcode, ht⟩ := constant_picks h
    exact ⟨hcode, Or.inr ht⟩
  | .name l, _, _, _, _, h, _ => by
    simp only [expr, bind_ok, newTemp_ok, textOf_ok, pure_ok, Prod.mk.injEq] at h
    obtain ⟨_, _, ⟨rfl, rfl⟩, _, _, ⟨rfl, rfl⟩, ⟨rfl, rfl⟩, rfl⟩ := h
    refine ⟨⟨Names.le_newTemp _, ?_⟩, Or.inr (new_newTemp _)⟩
    simpa using selected_oper (by simp) (by simp) (by simp [new_newTemp]) (by simp)
  | .temp t, s, _, _, _, h, hr => by
    simp only [expr, pure_ok, Prod.mk.injEq] at h
    obtain ⟨⟨rfl, rfl⟩, rfl⟩ := h
    exact ⟨picks_nil (Names.le_refl _), Or.inl (hr (List.mem_singleton_self _))⟩
  | .mem a, s, _, _, _, h, hr => by
    simp only [expr, bind_ok, newTemp_ok, pure_ok, Prod.mk.injEq, Prod.exists] at h
    obtain ⟨code, v, s₁, ha, _, _, ⟨rfl, rfl⟩, ⟨rfl, rfl⟩, rfl⟩ := h
    obtain ⟨hcode, hv⟩ := expr_picks ha hr
    have hle := Names.le_newTemp s₁.names
    have hnew := (new_newTemp s₁.names).mono hcode.names (Names.le_refl _)
    refine ⟨hcode.snoc hle ?_, Or.inr hnew⟩
    have hv' := hv.imp_right fun h => h.mono (Names.le_refl s.names) hle
    simpa using selected_move hv' (Or.inr hnew)
  | .binary op l r, s, _, _, _, h, hr => by
    obtain ⟨hrl, hrr⟩ := List.append_subset.mp hr
    simp only [expr, bind_ok, newTemp_ok, pure_ok, Prod.mk.injEq, Prod.exists] at h
    obtain ⟨codeL, u, s₁, hl, codeR, v, s₂, hr', _, _, ⟨rfl, rfl⟩, ⟨rfl, rfl⟩, rfl⟩ := h
    obtain ⟨hcodeL, hu⟩ := expr_picks hl hrl
    obtain ⟨hcodeR, hv⟩ := expr_picks hr' hrr
    have hboth := hcodeL.append hcodeR
    have hle := Names.le_newTemp s₂.names
    have hnew := (new_newTemp s₂.names).mono hboth.names (Names.le_refl _)
    refine ⟨hboth.snoc hle (selected_binary ?_ ?_ hnew), Or.inr hnew⟩
    · exact hu.imp_right fun h => h.mono (Names.le_refl _) (Names.le_trans hcodeR.names hle)
    · exact hv.imp_right fun h => h.mono hcodeL.names hle
  | .unary op e, s, _, _, _, h, hr => by
    simp only [expr, bind_ok, newTemp_ok, pure_ok, Prod.mk.injEq, Prod.exists] at h
    obtain ⟨code, v, s₁, he, _, _, ⟨rfl, rfl⟩, ⟨rfl, rfl⟩, rfl⟩ := h
    obtain ⟨hcode, hv⟩ := expr_picks he hr
    have hle := Names.le_newTemp s₁.names
    have hnew := (new_newTemp s₁.names).mono hcode.names (Names.le_refl _)
    refine ⟨hcode.snoc hle ?_, Or.inr hnew⟩
    have hv' := hv.imp_right fun h => h.mono (Names.le_refl s.names) hle
    have hop : ∀ place m, unary op ≠ .increase place m := by
      intro place m
      cases op <;> simp [unary]
    simpa using selected_oper hop (by simpa using hv') (by simp [hnew]) (by simp)
  | .call f offsets args, s, _, _, _, h, hr => by
    simp only [expr, bind_ok, newTemp_ok, textOf_ok, pure_ok, Prod.mk.injEq] at h
    obtain ⟨code, s₁, ha, _, _, ⟨rfl, rfl⟩, _, _, ⟨rfl, rfl⟩, ⟨rfl, rfl⟩, rfl⟩ := h
    have hcode := arguments_picks ha hr
    have hnew := (new_newTemp _).mono hcode.names (Names.le_refl _)
    refine ⟨hcode.snoc (Names.le_newTemp _) ?_, Or.inr hnew⟩
    rw [List.forall_mem_cons, List.forall_mem_singleton]
    exact ⟨selected_oper (by simp) (by simp) (by simp) (by simp),
      selected_oper (by simp) (by simp) (by simp [hnew]) (by simp)⟩
  | .after .., _, _, _, _, h, _ => by
    simp only [expr, defect_ok] at h

theorem arguments_picks :
    ∀ {args : List Ir.Expr} {offsets : List Word} {s s' : Session} {code : List Instr},
      arguments window loc offsets args s = .ok code s' → Ir.Expr.listTemps args ⊆ read →
      Picks read written marks s.names s'.names code
  | [], offsets, _, _, _, h, _ => by
    cases offsets with
    | nil | cons =>
      simp only [arguments, pure_ok] at h
      obtain ⟨rfl, rfl⟩ := h
      exact picks_nil (Names.le_refl _)
  | arg :: args, [], _, _, _, h, _ => by
    simp only [arguments, pure_ok] at h
    obtain ⟨rfl, rfl⟩ := h
    exact picks_nil (Names.le_refl _)
  | arg :: args, offset :: offsets, s, _, _, h, hr => by
    obtain ⟨hra, hras⟩ := List.append_subset.mp hr
    simp only [arguments, bind_ok, Prod.exists] at h
    obtain ⟨code, v, s₁, ha, h⟩ := h
    obtain ⟨hcode, hv⟩ := expr_picks ha hra
    -- the argument is stored at its offset or, if that is great, by way of a constant
    split at h
    · simp only [bind_ok, pure_ok] at h
      obtain ⟨_, _, ⟨rfl, rfl⟩, rest, _, hrest, rfl, rfl⟩ := h
      refine (hcode.snoc (Names.le_refl _) ?_).append (arguments_picks hrest hras)
      simpa using selected_oper (by simp) (by simpa using hv) (by simp) (by simp)
    · simp only [bind_ok, pure_ok, Prod.exists] at h
      obtain ⟨codeO, o, s₂, ho, _, _, ⟨rfl, rfl⟩, rest, _, hrest, rfl, rfl⟩ := h
      obtain ⟨hcodeO, hnew⟩ := constant_picks ho
      rw [← List.append_assoc]
      refine ((hcode.append hcodeO).snoc (Names.le_refl _) ?_).append
        (arguments_picks hrest hras)
      have hv' := hv.imp_right fun h => h.mono (Names.le_refl s.names) hcodeO.names
      have hoffset := hnew.mono hcode.names (Names.le_refl _)
      simpa using selected_oper (by simp) (by simp [hv', hoffset]) (by simp) (by simp)

end

theorem move_picks {dst src : Ir.Expr} (h : move window loc dst src s = .ok code s')
    (hr : dst.temps ++ src.temps ⊆ read) (hw : (Ir.Stmt.move dst src).targets ⊆ written) :
    Picks read written marks s.names s'.names code := by
  obtain ⟨hrd, hrs⟩ := List.append_subset.mp hr
  -- a store, through a temporary or not
  have hstore : ∀ {src dst : Ir.Expr} {codeS codeD : List Instr} {v d : Temp} {s₁ s₂ : Session},
      expr window loc src s = .ok (codeS, v) s₁ → expr window loc dst s₁ = .ok (codeD, d) s₂ →
      src.temps ⊆ read → dst.temps ⊆ read →
      Picks read written marks s.names s₂.names (codeS ++ codeD) ∧
        (v ∈ read ∨ New s.names s₂.names v) ∧ (d ∈ read ∨ New s.names s₂.names d) := by
    intro src dst codeS codeD v d s₁ s₂ hs hd hrs hrd
    obtain ⟨hcodeS, hv⟩ := expr_picks hs hrs
    obtain ⟨hcodeD, hd'⟩ := expr_picks hd hrd
    exact ⟨hcodeS.append hcodeD,
      hv.imp_right fun h => h.mono (Names.le_refl _) hcodeD.names,
      hd'.imp_right fun h => h.mono hcodeS.names (Names.le_refl _)⟩
  unfold move at h
  split at h
  · simp only [bind_ok, newTemp_ok, pure_ok, Prod.exists] at h
    obtain ⟨codeS, u, s₁, hs, codeD, d, s₂, hd, _, _, ⟨rfl, rfl⟩, rfl, rfl⟩ := h
    obtain ⟨hcode, hu, hd'⟩ := hstore hs hd hrs hrd
    have hle := Names.le_newTemp s₂.names
    have hnew := (new_newTemp s₂.names).mono hcode.names (Names.le_refl _)
    have hu' := hu.imp_right fun h => h.mono (Names.le_refl s.names) hle
    have hd'' := hd'.imp_right fun h => h.mono (Names.le_refl s.names) hle
    refine hcode.snoc hle ?_
    rw [List.forall_mem_cons, List.forall_mem_singleton]
    exact ⟨selected_move hu' (Or.inr hnew),
      selected_oper (by simp) (by simp [hnew, hd'']) (by simp) (by simp)⟩
  · simp only [bind_ok, pure_ok, Prod.exists] at h
    obtain ⟨codeS, v, s₁, hs, codeD, d, s₂, hd, rfl, rfl⟩ := h
    obtain ⟨hcode, hv, hd'⟩ := hstore hs hd hrs hrd
    refine hcode.snoc (Names.le_refl _) ?_
    simpa using selected_oper (by simp) (by simp [hv, hd']) (by simp) (by simp)
  · simp only [bind_ok, pure_ok, Prod.exists] at h
    obtain ⟨codeS, u, s₁, hs, rfl, rfl⟩ := h
    obtain ⟨hcode, hu⟩ := expr_picks hs hrs
    refine hcode.snoc (Names.le_refl _) ?_
    simpa using selected_move hu (Or.inl (hw (by simp [Ir.Stmt.targets])))
  · simp only [bind_ok, pure_ok, Prod.exists] at h
    obtain ⟨codeS, u, s₁, hs, rfl, rfl⟩ := h
    obtain ⟨hcode, hu⟩ := expr_picks hs hrs
    refine hcode.snoc (Names.le_refl _) ?_
    simpa using selected_move hu (Or.inl (hw (by simp [Ir.Stmt.targets])))
  · simp only [defect_ok] at h

mutual

theorem stmt_picks :
    ∀ {st : Ir.Stmt} {s s' : Session} {code : List Instr},
      stmt window loc st s = .ok code s' → st.temps ⊆ read → st.targets ⊆ written →
      st.labels ⊆ marks → Picks read written marks s.names s'.names code
  | .move dst src, _, _, _, h, hr, hw, _ => move_picks h hr hw
  | .eval e, _, _, _, h, hr, _, _ => by
    simp only [stmt, bind_ok, pure_ok, Prod.exists] at h
    obtain ⟨code, t, s₁, he, rfl, rfl⟩ := h
    exact (expr_picks he hr).1
  | .branch c pos neg, _, _, _, h, hr, _, _ => by
    simp only [stmt, bind_ok, textOf_ok, pure_ok, Prod.exists] at h
    obtain ⟨code, v, s₁, hc, _, _, ⟨rfl, rfl⟩, rfl, rfl⟩ := h
    obtain ⟨hcode, hv⟩ := expr_picks hc hr
    refine hcode.snoc (Names.le_refl _) ?_
    simpa using selected_oper (by simp) (by simpa using hv) (by simp) (by simp)
  | .jump l, _, _, _, h, _, _, _ => by
    simp only [stmt, bind_ok, textOf_ok, pure_ok] at h
    obtain ⟨_, _, ⟨rfl, rfl⟩, rfl, rfl⟩ := h
    refine ⟨Names.le_refl _, ?_⟩
    simpa using selected_oper (by simp) (by simp) (by simp) (by simp)
  | .label l, _, _, _, h, _, _, hm => by
    simp only [stmt, pure_ok] at h
    obtain ⟨rfl, rfl⟩ := h
    refine ⟨Names.le_refl _, List.forall_mem_singleton.mpr
      ⟨nofun, nofun, by simp [Instr.uses, Instr.defs], nofun, ?_⟩⟩
    rintro _ ⟨⟩
    exact hm (List.mem_singleton_self l)
  | .seq ss, _, _, _, h, hr, hw, hm => by
    rw [stmt] at h
    exact stmts_picks h hr hw hm

theorem stmts_picks :
    ∀ {ss : List Ir.Stmt} {s s' : Session} {code : List Instr},
      stmts window loc ss s = .ok code s' → Ir.Stmt.listTemps ss ⊆ read →
      Ir.Stmt.listTargets ss ⊆ written → Ir.Stmt.listLabels ss ⊆ marks →
      Picks read written marks s.names s'.names code
  | [], _, _, _, h, _, _, _ => by
    simp only [stmts, pure_ok] at h
    obtain ⟨rfl, rfl⟩ := h
    exact picks_nil (Names.le_refl _)
  | st :: ss, _, _, _, h, hr, hw, hm => by
    obtain ⟨hr₁, hr₂⟩ := List.append_subset.mp hr
    obtain ⟨hw₁, hw₂⟩ := List.append_subset.mp hw
    obtain ⟨hm₁, hm₂⟩ := List.append_subset.mp hm
    simp only [stmts, bind_ok, pure_ok] at h
    obtain ⟨code, s₁, hst, rest, _, hss, rfl, rfl⟩ := h
    exact (stmt_picks hst hr₁ hw₁ hm₁).append (stmts_picks hss hr₂ hw₂ hm₂)

end

theorem label_mem_stmt {st : Ir.Stmt} {l : Label} (h : stmt window loc st s = .ok code s')
    (hl : .label l ∈ code) : l ∈ st.labels :=
  ((stmt_picks h (List.Subset.refl _) (List.Subset.refl _) (List.Subset.refl _)).instrs _ hl).mark
    rfl

theorem label_mem_stmts {ss : List Ir.Stmt} {l : Label} (h : stmts window loc ss s = .ok code s')
    (hl : .label l ∈ code) :
    l ∈ Ir.Stmt.listLabels ss :=
  ((stmts_picks h (List.Subset.refl _) (List.Subset.refl _) (List.Subset.refl _)).instrs _ hl).mark
    rfl

theorem expr_le {e : Ir.Expr} {r : List Instr × Temp} (h : expr window loc e s = .ok r s') :
    s.names ≤ s'.names := by
  have hpicks : Picks e.temps [] [] s.names s'.names r.1 := (expr_picks h (List.Subset.refl _)).1
  exact hpicks.names

theorem arguments_le {args : List Ir.Expr} {offsets : List Word}
    (h : arguments window loc offsets args s = .ok code s') :
    s.names ≤ s'.names := by
  have hpicks : Picks (Ir.Expr.listTemps args) [] [] s.names s'.names code :=
    arguments_picks h (List.Subset.refl _)
  exact hpicks.names

end

/-! ## Canonical code has instructions -/

section

variable {window : Nat} {loc : Location}

theorem arguments_of_operands {args : List Ir.Expr} :
    ∀ (offsets : List Word) (s : Session), args.all Ir.Expr.isOperand →
      ∃ code s', arguments window loc offsets args s = .ok code s' ∧
        s'.names.labels = s.names.labels := by
  induction args with
  | nil =>
    intro offsets s _
    exact ⟨[], s, by cases offsets <;> rfl, rfl⟩
  | cons arg args ih =>
    intro offsets s h
    cases offsets with
    | nil => exact ⟨[], s, rfl, rfl⟩
    | cons offset offsets =>
      rw [List.all_cons, Bool.and_eq_true] at h
      obtain ⟨harg, hargs⟩ := h
      cases arg with
      | temp t =>
        -- a great offset takes a temporary of its own
        by_cases hoffset : offset ≤ maxImmediate
        · obtain ⟨code, s', hcode, hlabels⟩ := ih offsets s hargs
          refine ⟨[.oper (.storeArg offset) [t] [] []] ++ code, s', ?_, hlabels⟩
          simp only [arguments, expr, bind_ok, pure_ok, if_pos hoffset]
          exact ⟨_, _, ⟨rfl, rfl⟩, _, _, ⟨rfl, rfl⟩, _, _, hcode, rfl, rfl⟩
        · obtain ⟨code, s', hcode, hlabels⟩ :=
            ih offsets { s with names := s.names.newTemp.2 } hargs
          refine ⟨loadConstant ⟨s.names.temps⟩ offset ++
            [.oper .storeArgSum [t, ⟨s.names.temps⟩] [] []] ++ code, s', ?_, hlabels⟩
          simp only [arguments, expr, constant, bind_ok, pure_ok, newTemp_ok,
            if_neg hoffset]
          exact ⟨_, _, ⟨rfl, rfl⟩, _, _, ⟨_, _, ⟨rfl, rfl⟩, rfl, rfl⟩, _, _, ⟨rfl, rfl⟩, _, _,
            hcode, rfl, rfl⟩
      | const | name | mem | binary | unary | call | after => cases harg

/-- A value has instructions; selecting them only takes temporaries. -/
theorem expr_of_isValue :
    ∀ (e : Ir.Expr) (s : Session), e.isValue →
      ∃ r s', expr window loc e s = .ok r s' ∧ s'.names.labels = s.names.labels
  | .const _, s, _ | .name _, s, _ => ⟨_, { s with names := s.names.newTemp.2 }, rfl, rfl⟩
  | .temp _, s, _ => ⟨_, s, rfl, rfl⟩
  | .binary op (.temp _) (.temp _), s, _ => ⟨_, { s with names := s.names.newTemp.2 }, rfl, rfl⟩
  | .unary op e, s, h => by
    obtain ⟨r, s₁, he, hlabels⟩ := expr_of_isValue e s h
    refine ⟨(r.1 ++ [.oper (unary op) [r.2] [⟨s₁.names.temps⟩] []], ⟨s₁.names.temps⟩),
      { s₁ with names := s₁.names.newTemp.2 }, ?_, hlabels⟩
    simp only [expr, bind_ok, newTemp_ok, pure_ok]
    exact ⟨_, _, he, _, _, ⟨rfl, rfl⟩, rfl, rfl⟩
  | .call f offsets args, s, h => by
    obtain ⟨code, s₁, hargs, hlabels⟩ := arguments_of_operands offsets s h
    refine ⟨(code ++ [.oper (.call window (s₁.names.textOf f)) [] [] [f],
        .oper .result [] [⟨s₁.names.temps⟩] []], ⟨s₁.names.temps⟩),
      { s₁ with names := s₁.names.newTemp.2 }, ?_, hlabels⟩
    simp only [expr, bind_ok, newTemp_ok, textOf_ok, pure_ok]
    exact ⟨_, _, hargs, _, _, ⟨rfl, rfl⟩, _, _, ⟨rfl, rfl⟩, rfl, rfl⟩

theorem stmt_of_isCanonical (window : Nat) (loc : Location) {st : Ir.Stmt} (s : Session)
    (h : st.isCanonical) :
    ∃ code s', stmt window loc st s = .ok code s' ∧ s'.names.labels = s.names.labels := by
  cases st with
  | label l | jump l => exact ⟨_, s, rfl, rfl⟩
  | seq ss => cases h
  | eval e =>
    obtain ⟨r, s', he, hlabels⟩ := expr_of_isValue e s h
    refine ⟨r.1, s', ?_, hlabels⟩
    simp only [stmt, bind_ok, pure_ok]
    exact ⟨_, _, he, rfl, rfl⟩
  | branch c pos neg =>
    obtain ⟨r, s', hc, hlabels⟩ := expr_of_isValue c s h
    refine ⟨r.1 ++ [.oper (.branch (s'.names.textOf pos)) [r.2] [] [pos, neg]], s', ?_, hlabels⟩
    simp only [stmt, bind_ok, textOf_ok, pure_ok]
    exact ⟨_, _, hc, _, _, ⟨rfl, rfl⟩, rfl, rfl⟩
  | move dst src =>
    have hkeep : ∀ (t : Temp) (op : Op) (e : Ir.Expr), e.isValue →
        ∃ code s', (expr window loc e >>= fun r => pure (r.1 ++ [Instr.move op t r.2])) s =
          .ok code s' ∧ s'.names.labels = s.names.labels := by
      intro t op e he
      obtain ⟨r, s', hr, hlabels⟩ := expr_of_isValue e s he
      refine ⟨r.1 ++ [.move op t r.2], s', ?_, hlabels⟩
      simp only [bind_ok, pure_ok]
      exact ⟨_, _, hr, rfl, rfl⟩
    cases dst with
    | temp t =>
      cases src with
      | mem e => exact hkeep t .load e h
      | const v => exact hkeep t .copy (.const v) h
      | name l => exact hkeep t .copy (.name l) h
      | temp u => exact hkeep t .copy (.temp u) h
      | binary op l r => exact hkeep t .copy (.binary op l r) h
      | unary op e => exact hkeep t .copy (.unary op e) h
      | call f offsets args => exact hkeep t .copy (.call f offsets args) h
      | after => cases h
    | mem addr =>
      rw [Ir.Stmt.isCanonical, Bool.and_eq_true] at h
      obtain ⟨haddr, hsrc⟩ := h
      cases addr with
      | temp a =>
        cases src with
        | temp v => exact ⟨_, s, rfl, rfl⟩
        | const | name | mem | binary | unary | call | after => cases hsrc
      | const | name | mem | binary | unary | call | after => cases haddr
    | const | name | binary | unary | call | after => cases h

theorem stmts_of_isCanonical (window : Nat) (loc : Location) {ss : List Ir.Stmt} :
    ∀ s : Session, Ir.isCanonical ss →
      ∃ code s', stmts window loc ss s = .ok code s' ∧ s'.names.labels = s.names.labels := by
  induction ss with
  | nil =>
    intro s _
    exact ⟨[], s, rfl, rfl⟩
  | cons st ss ih =>
    intro s h
    rw [Ir.isCanonical, List.all_cons, Bool.and_eq_true] at h
    obtain ⟨code, s₁, hst, hlabels⟩ := stmt_of_isCanonical window loc s h.1
    obtain ⟨rest, s', hss, hlabels'⟩ := ih s₁ h.2
    refine ⟨code ++ rest, s', ?_, hlabels'.trans hlabels⟩
    simp only [stmts, bind_ok, pure_ok]
    exact ⟨_, _, hst, _, _, hss, rfl, rfl⟩

end

end Selection

/-! ## Chunks -/

/-- The code of a chunk is that of its statements, in the frame of the chunk, with nothing spilled. -/
theorem CodeChunk.select_ok {window : Nat} {chunk : CodeChunk} {s s' : Session} {c : Code}
    (h : chunk.select window s = .ok c s') :
    Selection.Picks (Ir.Stmt.listTemps chunk.stmts) (Ir.Stmt.listTargets chunk.stmts)
        (Ir.Stmt.listLabels chunk.stmts) s.names s'.names c.instrs ∧
      c.frame = chunk.frame ∧ c.slots = ∅ ∧ c.spillSize = 0 := by
  simp only [CodeChunk.select, bind_ok, note_ok, pure_ok] at h
  obtain ⟨instrs, s₁, hs, _, _, rfl, rfl, rfl⟩ := h
  have hpicks := Selection.stmts_picks hs (List.Subset.refl _) (List.Subset.refl _)
    (List.Subset.refl _)
  exact ⟨hpicks, rfl, rfl, rfl⟩

end MmixBackend
