import MmixBackend.Proofs.Compilation
import MmixBackend.Proofs.Meaning
import MmixBackend.Proofs.Outline
import MmixBackend.Proofs.TwoAddress

/-!
# Where temporaries come from

The code of a function's body has one temporary, that of the frame pointer, and moves nothing into
a temporary.  Bringing it into canonical form adds temporaries that were never used before, and
only these are moved into.  So the code chunks of a compiled program are canonical, all their
temporaries were handed out, and the frame pointer is never written.
-/

namespace MmixBackend

open Typed Build

/-! ## Code over the frame pointer -/

namespace Ir

mutual

/-- The only temporary of an expression is `fp`, and it moves nothing into a temporary. -/
def Expr.Confined (fp : Temp) : Expr → Prop
  | .const _ | .name _ => True
  | .temp t => t = fp
  | .mem a => a.Confined fp
  | .binary _ l r => l.Confined fp ∧ r.Confined fp
  | .unary _ e => e.Confined fp
  | .call _ _ args => Expr.AllConfined fp args
  | .after s e => s.Confined fp ∧ e.Confined fp

def Expr.AllConfined (fp : Temp) : List Expr → Prop
  | [] => True
  | e :: es => e.Confined fp ∧ Expr.AllConfined fp es

/-- The only temporary of a statement is `fp`, and it moves nothing into a temporary. -/
def Stmt.Confined (fp : Temp) : Stmt → Prop
  | .move dst src => (∀ t, dst ≠ .temp t) ∧ dst.Confined fp ∧ src.Confined fp
  | .eval e | .branch e _ _ => e.Confined fp
  | .jump _ | .label _ => True
  | .seq ss => Stmt.AllConfined fp ss

def Stmt.AllConfined (fp : Temp) : List Stmt → Prop
  | [] => True
  | s :: ss => s.Confined fp ∧ Stmt.AllConfined fp ss

end

theorem Stmt.allConfined_append {fp : Temp} {ss ts : List Stmt} :
    Stmt.AllConfined fp (ss ++ ts) ↔ Stmt.AllConfined fp ss ∧ Stmt.AllConfined fp ts := by
  induction ss with
  | nil => simp [Stmt.AllConfined]
  | cons s ss ih => rw [List.cons_append, Stmt.AllConfined, Stmt.AllConfined, ih, and_assoc]

end Ir

namespace Lowering

open Ir

theorem confined_follow {fp : Temp} (n : Nat) {e : Ir.Expr} (h : e.Confined fp) :
    (follow n e).Confined fp := by
  induction n generalizing e with
  | zero => exact h
  | succ n ih => exact ih h

def Part.Confined (fp : Temp) : Part → Prop
  | .code _ ir | .expr _ ir => ir.Confined fp
  | .arguments _ _ _ vs => Ir.Expr.AllConfined fp vs
  | .block _ xs v => Ir.Stmt.AllConfined fp xs ∧ v.Confined fp
  | .stmt _ x => x.Confined fp
  | .stmts _ xs => Ir.Stmt.AllConfined fp xs
  | .functions _ => True

theorem Lowers.confined {scope : Scope} {p : Part} {t t' : Lowered} {s s' : Session}
    {frame : Frame} (h : Lowers scope p t s t' s') (hf : scope.frame = some frame) :
    p.Confined frame.fp := by
  induction h with
  | entered _ _ ih | scope _ _ _ ih | block _ ih | eval _ ih => exact ih hf
  | leaf h =>
    cases h with
    | word | literal | static => trivial
    | framed _ hg =>
      obtain rfl := Option.some.inj (hf.symm.trans hg)
      exact ⟨confined_follow _ rfl, trivial⟩
  | wrap h _ ih =>
    cases h with
    | field | char => exact ⟨ih hf, trivial⟩
    | plus | minus | not | addressOf | deref | cast => exact ih hf
  | join h _ _ ih₁ ih₂ =>
    cases h with
    | index => exact ⟨ih₁ hf, ih₂ hf, trivial⟩
    | binary => exact ⟨ih₁ hf, ih₂ hf⟩
  | runtime _ hg _ ih =>
    obtain rfl := Option.some.inj (hf.symm.trans hg)
    exact ⟨rfl, ih hf, trivial⟩
  | call _ hg _ _ ih =>
    obtain rfl := Option.some.inj (hf.symm.trans hg)
    exact ⟨confined_follow _ rfl, ih hf⟩
  | noArguments | noStmts | noFunctions | var | foreign | fn => trivial
  | noResult => exact ⟨trivial, trivial⟩
  | argument _ _ _ _ ih₁ ih₂ | stmt _ _ ih₁ ih₂ => exact ⟨ih₁ hf, ih₂ hf⟩
  | result _ ih => exact ⟨trivial, ih hf⟩
  | next _ _ _ ih₁ ih₂ => exact ⟨⟨ih₁ hf, (ih₂ hf).1⟩, (ih₂ hf).2⟩
  | assign h₁ _ ih₁ ih₂ => exact ⟨h₁.solid.ne_temp, ih₁ hf, ih₂ hf⟩
  | cond _ _ _ hx ih₁ ih₂ ih₃ =>
    simp only [hx, Part.Confined, Ir.Stmt.Confined, Ir.Stmt.allConfined_append,
      Ir.Stmt.AllConfined, and_true]
    exact ⟨⟨ih₁ hf, ih₂ hf⟩, ih₃ hf⟩
  | loop _ _ hx ih₁ ih₂ =>
    simp only [hx, Part.Confined, Ir.Stmt.Confined, Ir.Stmt.allConfined_append,
      Ir.Stmt.AllConfined, true_and, and_true]
    exact ⟨ih₁ hf, ih₂ hf⟩

end Lowering

/-! ## Canonical code over new temporaries -/

namespace Ir

open Selection (New)

theorem Stmt.listTemps_append (ss ts : List Stmt) :
    Stmt.listTemps (ss ++ ts) = Stmt.listTemps ss ++ Stmt.listTemps ts := by
  induction ss with
  | nil => rfl
  | cons s ss ih => rw [List.cons_append, Stmt.listTemps, Stmt.listTemps, ih, List.append_assoc]

theorem Stmt.listTargets_append (ss ts : List Stmt) :
    Stmt.listTargets (ss ++ ts) = Stmt.listTargets ss ++ Stmt.listTargets ts := by
  induction ss with
  | nil => rfl
  | cons s ss ih =>
    rw [List.cons_append, Stmt.listTargets, Stmt.listTargets, ih, List.append_assoc]

theorem Expr.listTemps_append (es fs : List Expr) :
    Expr.listTemps (es ++ fs) = Expr.listTemps es ++ Expr.listTemps fs := by
  induction es with
  | nil => rfl
  | cons e es ih => rw [List.cons_append, Expr.listTemps, Expr.listTemps, ih, List.append_assoc]

/-- Code with values left: all temporaries are `fp` or new, and those moved into are new. -/
structure Draws (fp : Temp) (n n' : Names) (code : List Stmt) (vals : List Expr) : Prop where
  temps : ∀ t ∈ Stmt.listTemps code, t = fp ∨ New n n' t
  targets : ∀ t ∈ Stmt.listTargets code, New n n' t
  vals : ∀ t ∈ Expr.listTemps vals, t = fp ∨ New n n' t

section Draws

variable {fp t : Temp} {n n₁ n' : Names} {code code' : List Stmt} {e : Expr}
  {vals vals' : List Expr}

theorem draws_nil (fp : Temp) (n n' : Names) : Draws fp n n' [] [] :=
  ⟨by simp [Stmt.listTemps], by simp [Stmt.listTargets], by simp [Expr.listTemps]⟩

theorem Draws.mono {m m' : Names} (h : Draws fp n n' code vals) (hm : m ≤ n) (hm' : n' ≤ m') :
    Draws fp m m' code vals := by
  have hnew : ∀ {t}, New n n' t → New m m' t := fun ht =>
    ⟨Nat.le_trans (Names.temps_le hm) ht.1, Nat.lt_of_lt_of_le ht.2 (Names.temps_le hm')⟩
  exact ⟨fun t ht => (h.temps t ht).imp_right hnew, fun t ht => hnew (h.targets t ht),
    fun t ht => (h.vals t ht).imp_right hnew⟩

theorem Draws.append (h : Draws fp n n' code vals) (h' : Draws fp n n' code' vals') :
    Draws fp n n' (code ++ code') (vals ++ vals') := by
  refine ⟨fun t ht => ?_, fun t ht => ?_, fun t ht => ?_⟩
  · rw [Stmt.listTemps_append, List.mem_append] at ht
    exact ht.elim (h.temps t) (h'.temps t)
  · rw [Stmt.listTargets_append, List.mem_append] at ht
    exact ht.elim (h.targets t) (h'.targets t)
  · rw [Expr.listTemps_append, List.mem_append] at ht
    exact ht.elim (h.vals t) (h'.vals t)

/-- Code in order, where what is drawn later is new as well. -/
theorem Draws.seq (h : Draws fp n n₁ code vals) (h' : Draws fp n₁ n' code' vals') (hle : n ≤ n₁)
    (hle' : n₁ ≤ n') : Draws fp n n' (code ++ code') (vals ++ vals') :=
  (h.mono (Names.le_refl _) hle').append (h'.mono hle (Names.le_refl _))

/-- The value that is left goes into a new temporary. -/
theorem Draws.set (h : Draws fp n n' code [e]) (ht : New n n' t) :
    Draws fp n n' (code ++ [.move (.temp t) e]) [] := by
  refine ⟨fun u hu => ?_, fun u hu => ?_, by simp [Expr.listTemps]⟩
  · rw [Stmt.listTemps_append, List.mem_append] at hu
    rcases hu with hu | hu
    · exact h.temps u hu
    · rcases List.mem_cons.mp hu with rfl | hu
      · exact Or.inr ht
      · exact h.vals u hu
  · rw [Stmt.listTargets_append, List.mem_append] at hu
    rcases hu with hu | hu
    · exact h.targets u hu
    · obtain rfl := List.mem_singleton.mp hu
      exact ht

/-- A statement that moves nothing into a temporary and has those of the values left. -/
theorem Draws.snoc (h : Draws fp n n' code vals) (st : Stmt) (htargets : st.targets = [])
    (htemps : st.temps = Expr.listTemps vals) : Draws fp n n' (code ++ [st]) [] := by
  have hlast : Draws fp n n' [st] [] := by
    refine ⟨fun u hu => ?_, fun u hu => ?_, by simp [Expr.listTemps]⟩
    · rw [Stmt.listTemps, Stmt.listTemps, List.append_nil, htemps] at hu
      exact h.vals u hu
    · rw [Stmt.listTargets, Stmt.listTargets, List.append_nil, htargets] at hu
      cases hu
  refine ⟨fun u hu => ?_, fun u hu => ?_, by simp [Expr.listTemps]⟩
  · rw [Stmt.listTemps_append, List.mem_append] at hu
    exact hu.elim (h.temps u) (hlast.temps u)
  · rw [Stmt.listTargets_append, List.mem_append] at hu
    exact hu.elim (h.targets u) (hlast.targets u)

theorem Draws.temp (h : Draws fp n n' code []) (ht : New n n' t) :
    Draws fp n n' code [.temp t] := by
  refine ⟨h.temps, h.targets, fun u hu => ?_⟩
  obtain rfl := List.mem_singleton.mp hu
  exact Or.inr ht

theorem Draws.vals_eq (h : Draws fp n n' code vals)
    (hvals : Expr.listTemps vals' = Expr.listTemps vals) : Draws fp n n' code vals' :=
  ⟨h.temps, h.targets, hvals ▸ h.vals⟩

/-- The value that is left goes into the temporary that was drawn before its code. -/
theorem Draws.put (h : Draws fp n.newTemp.2 n' code [e]) (hle : n.newTemp.2 ≤ n') :
    Draws fp n n' (code ++ [.move (.temp ⟨n.temps⟩) e]) [.temp ⟨n.temps⟩] := by
  have hnew : New n n' ⟨n.temps⟩ := ⟨Nat.le_refl _, Names.temps_le hle⟩
  exact ((h.mono (Names.le_newTemp n) (Names.le_refl _)).set hnew).temp hnew

end Draws

def Tree.Confined (fp : Temp) : Tree → Prop
  | .expr e _ | .operand e _ => e.Confined fp
  | .args es _ => Expr.AllConfined fp es
  | .stmt st => st.Confined fp
  | .stmts ss => Stmt.AllConfined fp ss

theorem Canonizes.draws {fp : Temp} {t : Tree} {n m : Names} {code : List Stmt}
    (h : Canonizes t n code m) : t.Confined fp → Draws fp n m code t.vals := by
  induction h with
  | const | name =>
    exact fun _ => (draws_nil _ _ _).vals_eq rfl
  | temp =>
    refine fun he => ⟨by simp [Stmt.listTemps], by simp [Stmt.listTargets], fun t ht => ?_⟩
    obtain rfl := List.mem_singleton.mp ht
    exact Or.inl he
  | noArgs | noStmts => exact fun _ => draws_nil _ _ _
  | label | jump => exact fun _ => (draws_nil _ _ _).snoc _ rfl rfl
  | mem h ih =>
    intro he
    have hload : Draws fp _ _ _ [.mem _] := (ih he).vals_eq rfl
    exact hload.put h.le
  | operand h ih => exact fun he => (ih he).put h.le
  | unary _ ih => exact fun he => (ih he).vals_eq rfl
  | call _ ih => exact fun he => (ih he).vals_eq (List.append_nil _)
  | branch _ ih | eval _ ih => exact fun he => (ih he).snoc _ rfl (List.append_nil _).symm
  | binary h₁ h₂ ih₁ ih₂ =>
    exact fun he => ((ih₁ he.1).seq (ih₂ he.2) h₁.le h₂.le).vals_eq rfl
  | after h₁ h₂ ih₁ ih₂ | arg h₁ h₂ ih₁ ih₂ | next h₁ h₂ ih₁ ih₂ =>
    exact fun he => (ih₁ he.1).seq (ih₂ he.2) h₁.le h₂.le
  | store h₁ h₂ ih₁ ih₂ =>
    exact fun he => ((ih₁ he.2.1).seq (ih₂ he.2.2) h₁.le h₂.le).snoc _ rfl rfl
  | set => exact fun he => absurd rfl (he.1 _)
  | seq _ ih => exact ih

end Ir

/-- Linear code has the temporaries of the code it is made from, and is canonical if that is. -/
theorem Linearizes.temps {n n' : Names} {ss lin : List Ir.Stmt} (h : Linearizes n ss lin n') :
    Ir.Stmt.listTemps lin = Ir.Stmt.listTemps ss ∧
      Ir.Stmt.listTargets lin = Ir.Stmt.listTargets ss ∧ Ir.isCanonical lin = Ir.isCanonical ss := by
  induction h with
  | nil => exact ⟨rfl, rfl, rfl⟩
  | branch _ ih =>
    obtain ⟨htemps, htargets, hform⟩ := ih
    simp only [Ir.Stmt.listTemps, Ir.Stmt.listTargets, Ir.Stmt.temps, Ir.Stmt.targets,
      Ir.isCanonical_cons, Ir.Stmt.isCanonical, htemps, htargets, hform, List.nil_append,
      Bool.true_and, and_self]
  | other _ _ ih =>
    obtain ⟨htemps, htargets, hform⟩ := ih
    simp only [Ir.Stmt.listTemps, Ir.Stmt.listTargets, Ir.isCanonical_cons, htemps, htargets,
      hform, and_self]

/-! ## Chunks -/

theorem CodeChunk.Drawn.mono {c : CodeChunk} {n n' : Names} (h : c.Drawn n) (hle : n ≤ n') :
    c.Drawn n' :=
  ⟨fun t ht => Nat.lt_of_lt_of_le (h.temps t ht) (Names.temps_le hle),
    Nat.lt_of_lt_of_le h.fp (Names.temps_le hle), Nat.lt_of_lt_of_le h.rv (Names.temps_le hle),
    h.apart, h.kept⟩

/-- The chunk of a function is canonical and its temporaries were handed out, if those of the code
of its body were. -/
theorem CodeChunk.build_drawn {layout : Layout} {code : Lowered} {head : Head} {body : Typed.Expr}
    {s s' : Session} {c : CodeChunk} {n : Names} {fp : Temp}
    (h : CodeChunk.build layout code head body s = .ok c s')
    (hbody : ∀ value, code.exprs[body.id]? = some value → value.Confined fp)
    (hown : n.HasTemp fp) (hle : n ≤ s.names) (hne : c.frame.fp ≠ c.frame.rv)
    (hfp : n.HasTemp c.frame.fp) (hrv : n.HasTemp c.frame.rv) :
    c.Drawn s'.names ∧ Ir.isCanonical c.stmts := by
  obtain ⟨value, flat, s₁, hf, hv, hflat, hstmts, -⟩ := CodeChunk.build_ok h
  have hvalue := hbody value hv
  obtain ⟨pre, val, hval, rfl⟩ := Ir.Stmt.canonize_set hflat
  have hle₁ : s.marked.drawn.names ≤ s₁.names := (Ir.Expr.canonizes hval).le
  have hdraws : Ir.Draws fp s.marked.drawn.names s₁.names pre [val] :=
    (Ir.Expr.canonizes hval).draws hvalue
  have hmarked : n.temps ≤ s.names.temps := Names.temps_le hle
  have hold : ∀ {u : Temp}, n.HasTemp u → u.index < s.marked.drawn.names.temps := fun hu =>
    Nat.lt_succ_of_lt (Nat.lt_of_lt_of_le hu hmarked)
  have hnow : ∀ {u : Temp}, u.index < s₁.names.temps → s'.names.HasTemp u := fun hu =>
    Nat.lt_of_lt_of_le hu (Names.temps_le hstmts.le)
  have hlater : ∀ {u : Temp}, n.HasTemp u → s'.names.HasTemp u := fun hu =>
    hnow (Nat.lt_of_lt_of_le (hold hu) (Names.temps_le hle₁))
  have hnew : ∀ {u : Temp}, u = fp ∨ Selection.New s.marked.drawn.names s₁.names u →
      s'.names.HasTemp u := by
    rintro u (rfl | hu)
    · exact hlater hown
    · exact hnow hu.2
  obtain ⟨htemps, htargets, hform⟩ := hstmts.temps
  refine ⟨⟨fun u hu => ?_, hlater hfp, hlater hrv, hne, fun hmem => ?_⟩, ?_⟩
  · rw [htemps] at hu
    simp only [List.cons_append, Ir.Stmt.listTemps, Ir.Stmt.listTemps_append, Ir.Stmt.temps,
      Ir.Expr.temps, List.nil_append, List.append_nil, List.mem_append, List.mem_cons,
      List.not_mem_nil, or_false] at hu
    rcases hu with hu | rfl | hu | rfl | rfl
    · exact hnew (hdraws.temps u hu)
    · exact hnow (Names.temps_le hle₁)
    · exact hnew (hdraws.vals u (by simpa [Ir.Expr.listTemps] using hu))
    · exact hlater hrv
    · exact hnow (Names.temps_le hle₁)
  · rw [htargets] at hmem
    simp only [List.cons_append, Ir.Stmt.listTargets, Ir.Stmt.listTargets_append,
      Ir.Stmt.targets, List.nil_append, List.append_nil, List.mem_append, List.mem_cons,
      List.not_mem_nil, or_false] at hmem
    have hlt := hold hfp
    rcases hmem with hmem | hmem | hmem
    · exact absurd hlt (Nat.not_lt_of_le (hdraws.targets _ hmem).1)
    · have hlow : c.frame.fp.index < s.marked.names.temps := Nat.lt_of_lt_of_le hfp hmarked
      rw [hmem] at hlow
      exact Nat.lt_irrefl _ hlow
    · exact hne hmem
  · rw [hform]
    have hcanon := Ir.Stmt.isCanonical_canonize hflat
    simpa [Ir.Stmt.isCanonical] using hcanon

/-- The chunks of a compiled program are canonical and their temporaries were handed out. -/
theorem Typed.Program.compile_drawn {p : Program} {s₀ s : Session} {c : Compiled}
    (h : p.compile s₀ = .ok c s) (hids : (Lowering.ids (Decl.listThroughout p.decls)).Nodup)
    (hheads : (p.heads.map (·.id)).Nodup) :
    ∀ chunk ∈ c.chunks.code, chunk.Drawn s.names ∧ Ir.isCanonical chunk.stmts := by
  obtain ⟨s₁, s₂, hlayout, hlower, hchunks⟩ := Program.compile_ok h
  have hof := Program.chunksOf hchunks
  have hle : s₁.names ≤ s₂.names := (Lowering.functions_lowers hlower).change.names
  intro chunk hchunk
  obtain ⟨f, hf, r, r', hbuild, hler, hler'⟩ := exists_rel_of_mem hof.code chunk hchunk
  obtain ⟨around, hitem⟩ := Program.exists_item hf
  obtain ⟨_, _, _, hframe, -⟩ := CodeChunk.build_ok hbuild
  have hmade := Layouting.made_of_frame hlayout hheads hitem hframe
  have hbody : ∀ value, c.code.exprs[f.2.id]? = some value → value.Confined chunk.frame.fp := by
    obtain ⟨frame, ir, t, t', r, r', hown, hir, -, hent⟩ :=
      (((Lowering.functions_lowers hlower).fills hids).bodies f hf).1
    obtain rfl : chunk.frame = frame := Option.some.inj (hframe.symm.trans hown)
    intro value hv
    obtain rfl : value = ir := Option.some.inj (hv.symm.trans hent)
    exact (Lowering.expr_lowers hir).confined rfl
  have hmade := hmade.mono hle
  obtain ⟨hdrawn, hform⟩ :=
    CodeChunk.build_drawn hbuild hbody hmade.fp hler hmade.ne hmade.fp hmade.rv
  exact ⟨hdrawn.mono hler', hform⟩

end MmixBackend
