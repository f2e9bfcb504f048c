import Mathlib.Data.Set.Insert
import MmixBackend.Proofs.WellFormed

/-!
# Definite assignment

Temporaries are written before they are read, on every way through the code.  What was written on
every way to a place is kept as a set; a label has its set written down, and every jump there and
every way past it must have written that much.  `Assigns Γ P code Q` says that the code can be read
so, from the set `P` to the set `Q` with the sets `Γ` at labels.

Main statement: in the code of a chunk the frame pointer alone is there before it is written, and
the temporary of the result is written on every way to the exit.  Sets are found for a tree at a
time: labels inside a tree get what was written where their statement starts.
-/

namespace MmixBackend

open Typed Build

/-! ## What code assigns -/

/-- What a statement or an instruction reads and writes, where it goes when it does not go on to the
next one, and the label that it is. -/
structure Footprint where
  reads : List Temp := []
  writes : List Temp := []
  goals : List Label := []
  mark : Option Label := none

/-- The temporaries that were written on every way to a label. -/
abbrev Written := Label → Set Temp

namespace Footprint

/-- What was written covers what is read and what is written down at labels. -/
structure Fits (Γ : Written) (P : Set Temp) (f : Footprint) : Prop where
  reads : ∀ t ∈ f.reads, t ∈ P
  goals : ∀ l ∈ f.goals, Γ l ⊆ P
  mark : ∀ l ∈ f.mark, Γ l ⊆ P

/-- What was written before the next one.  Behind a jump there is no way. -/
def next (Γ : Written) (P : Set Temp) (f : Footprint) : Set Temp :=
  match f.mark with
  | some l => Γ l
  | none => if f.goals = [] then P ∪ {t | t ∈ f.writes} else Set.univ

variable {Γ Γ' : Written} {P P' : Set Temp} {f : Footprint}

theorem Fits.mono (h : f.Fits Γ P) (hP : P ⊆ P') : f.Fits Γ P' :=
  ⟨fun t ht => hP (h.reads t ht), fun l hl => (h.goals l hl).trans hP,
    fun l hl => (h.mark l hl).trans hP⟩

/-- Both sets give the labels that occur the same temporaries. -/
def Agree (Γ Γ' : Written) (f : Footprint) : Prop :=
  (∀ l ∈ f.goals, Γ' l = Γ l) ∧ ∀ l ∈ f.mark, Γ' l = Γ l

theorem Fits.congr (h : f.Fits Γ P) (hΓ : f.Agree Γ Γ') : f.Fits Γ' P :=
  ⟨h.reads, fun l hl => (hΓ.1 l hl).subset.trans (h.goals l hl),
    fun l hl => (hΓ.2 l hl).subset.trans (h.mark l hl)⟩

theorem next_congr (hΓ : f.Agree Γ Γ') (P : Set Temp) : f.next Γ' P = f.next Γ P := by
  unfold next
  split
  · next l hl => exact hΓ.2 l hl
  · rfl

theorem mem_next {t : Temp} (hΓ : ∀ l, t ∈ Γ l) (ht : t ∈ P) : t ∈ f.next Γ P := by
  unfold next
  split
  · exact hΓ _
  · split
    · exact Or.inl ht
    · trivial

theorem next_mono (hP : P ⊆ P') : f.next Γ P ⊆ f.next Γ P' := by
  unfold next
  split
  · exact subset_rfl
  · split
    · exact Set.union_subset_union_left _ hP
    · exact subset_rfl

end Footprint

/-- The code can be read from what was written before it to what was written after it. -/
def Assigns (Γ : Written) : Set Temp → List Footprint → Set Temp → Prop
  | P, [], Q => Q ⊆ P
  | P, f :: fs, Q => f.Fits Γ P ∧ Assigns Γ (f.next Γ P) fs Q

section Assigns

variable {Γ Γ' : Written} {P P' Q Q' R : Set Temp} {f : Footprint} {fs gs : List Footprint}

theorem assigns_nil : Assigns Γ P [] P := subset_rfl

theorem Assigns.mono (h : Assigns Γ P fs Q) (hP : P ⊆ P') (hQ : Q' ⊆ Q) : Assigns Γ P' fs Q' := by
  induction fs generalizing P P' with
  | nil => exact hQ.trans (Set.Subset.trans h hP)
  | cons f fs ih => exact ⟨h.1.mono hP, ih h.2 (Footprint.next_mono hP)⟩

theorem Assigns.append (h : Assigns Γ P fs Q) (h' : Assigns Γ Q gs R) :
    Assigns Γ P (fs ++ gs) R := by
  induction fs generalizing P with
  | nil => exact h'.mono h subset_rfl
  | cons f fs ih => exact ⟨h.1, ih h.2⟩

theorem Assigns.congr (h : Assigns Γ P fs Q) (hΓ : ∀ f ∈ fs, f.Agree Γ Γ') : Assigns Γ' P fs Q := by
  induction fs generalizing P with
  | nil => exact h
  | cons f fs ih =>
    have hf := hΓ f List.mem_cons_self
    refine ⟨h.1.congr hf, ?_⟩
    rw [Footprint.next_congr hf]
    exact ih h.2 fun g hg => hΓ g (List.mem_cons_of_mem _ hg)

end Assigns

namespace Ir

/-! ## Statements -/

def Stmt.footprint : Stmt → Footprint
  | .label l => { mark := some l }
  | .jump l => { goals := [l] }
  | .branch c pos neg => { reads := c.temps, goals := [pos, neg] }
  | .move (.temp t) v => { reads := v.temps, writes := [t] }
  | st => { reads := st.temps }

section Footprints

variable {Γ : Written} {P Q : Set Temp} {l : Label} {fs : List Footprint}

theorem assigns_label {A : Set Temp} (hl : Γ l = A) (h : A ⊆ P) (hrest : Assigns Γ A fs Q) :
    Assigns Γ P ((Stmt.label l).footprint :: fs) Q := by
  subst hl
  exact ⟨⟨by simp [Stmt.footprint], by simp [Stmt.footprint], by simpa [Stmt.footprint] using h⟩,
    hrest⟩

theorem assigns_jump (h : Γ l ⊆ P) (hrest : Assigns Γ Set.univ fs Q) :
    Assigns Γ P ((Stmt.jump l).footprint :: fs) Q :=
  ⟨⟨by simp [Stmt.footprint], by simpa [Stmt.footprint] using h, by simp [Stmt.footprint]⟩, hrest⟩

theorem assigns_branch {c : Expr} {pos neg : Label} (hc : ∀ t ∈ c.temps, t ∈ P) (hpos : Γ pos ⊆ P)
    (hneg : Γ neg ⊆ P) (hrest : Assigns Γ Set.univ fs Q) :
    Assigns Γ P ((Stmt.branch c pos neg).footprint :: fs) Q :=
  ⟨⟨hc, by simpa [Stmt.footprint] using ⟨hpos, hneg⟩, by simp [Stmt.footprint]⟩, hrest⟩

end Footprints

/-- The code assigns so with sets at these labels that hold a temporary, whatever the sets at other
labels. -/
def AssignsWithin (fp : Temp) (labels : List Label) (P : Set Temp) (code : List Stmt)
    (Q : Set Temp) : Prop :=
  ∃ Γ₀ : Written, (∀ l ∈ labels, fp ∈ Γ₀ l) ∧
    ∀ Γ : Written, (∀ l ∈ labels, Γ l = Γ₀ l) → Assigns Γ P (code.map Stmt.footprint) Q

section Within

variable {fp : Temp} {P Q R : Set Temp} {labels labels' : List Label} {code code' : List Stmt}

theorem assignsWithin_nil : AssignsWithin fp [] P [] P :=
  ⟨fun _ => ∅, by simp, fun _ _ => subset_rfl⟩

/-- Labels of two parts have sets of their own. -/
theorem AssignsWithin.append (h : AssignsWithin fp labels P code Q)
    (h' : AssignsWithin fp labels' Q code' R) (hnd : (labels ++ labels').Nodup) :
    AssignsWithin fp (labels ++ labels') P (code ++ code') R := by
  obtain ⟨Γ₁, hfp₁, h₁⟩ := h
  obtain ⟨Γ₂, hfp₂, h₂⟩ := h'
  have hdisj : ∀ l ∈ labels', l ∉ labels := fun l hl hl' =>
    (List.nodup_append.mp hnd).2.2 l hl' l hl rfl
  refine ⟨fun l => if l ∈ labels then Γ₁ l else Γ₂ l, fun l hl => ?_, fun Γ hΓ => ?_⟩
  · rcases List.mem_append.mp hl with hl | hl
    · simpa [hl] using hfp₁ l hl
    · simpa [hdisj l hl] using hfp₂ l hl
  · rw [List.map_append]
    refine (h₁ Γ fun l hl => ?_).append (h₂ Γ fun l hl => ?_)
    · exact (hΓ l (List.mem_append_left _ hl)).trans (if_pos hl)
    · exact (hΓ l (List.mem_append_right _ hl)).trans (if_neg (hdisj l hl))

theorem AssignsWithin.mono {P' Q' : Set Temp} (h : AssignsWithin fp labels P code Q) (hP : P ⊆ P')
    (hQ : Q' ⊆ Q) : AssignsWithin fp labels P' code Q' := by
  obtain ⟨Γ₀, hfp, h⟩ := h
  exact ⟨Γ₀, hfp, fun Γ hΓ => (h Γ hΓ).mono hP hQ⟩

/-- A value is moved into a temporary behind the code. -/
theorem AssignsWithin.set {v : Expr} (h : AssignsWithin fp labels P code Q)
    (hv : ∀ u ∈ v.temps, u ∈ Q) (t : Temp) :
    AssignsWithin fp labels P (code ++ [.move (.temp t) v]) (insert t Q) := by
  obtain ⟨Γ₀, hfp, h⟩ := h
  refine ⟨Γ₀, hfp, fun Γ hΓ => ?_⟩
  rw [List.map_append]
  refine (h Γ hΓ).append ⟨⟨hv, by simp [Stmt.footprint], by simp [Stmt.footprint]⟩, ?_⟩
  simp [Assigns, Footprint.next, Stmt.footprint]

/-- A statement that only reads comes behind the code. -/
theorem AssignsWithin.read (h : AssignsWithin fp labels P code Q) (st : Stmt)
    (hst : st.footprint = { reads := st.temps }) (hv : ∀ u ∈ st.temps, u ∈ Q) :
    AssignsWithin fp labels P (code ++ [st]) Q := by
  obtain ⟨Γ₀, hfp, h⟩ := h
  refine ⟨Γ₀, hfp, fun Γ hΓ => ?_⟩
  simp only [List.map_append, List.map_cons, List.map_nil, hst]
  exact (h Γ hΓ).append ⟨⟨hv, by simp, by simp⟩, by simp [Assigns, Footprint.next]⟩

/-- Both cases of a conditional start with what was written before it, and so does what follows. -/
theorem AssignsWithin.cond {c : List Label} {ys ns : List Label} {pre yes no : List Stmt} {v : Expr}
    {onYes onNo done : Label} (hfp : fp ∈ P) (hc : AssignsWithin fp c P pre Q) (hP : P ⊆ Q)
    (hv : ∀ u ∈ v.temps, u ∈ Q) (hys : AssignsWithin fp ys P yes P)
    (hns : AssignsWithin fp ns P no P)
    (hnd : (c ++ onYes :: (ys ++ onNo :: (ns ++ [done]))).Nodup) :
    AssignsWithin fp (c ++ onYes :: (ys ++ onNo :: (ns ++ [done]))) P
      (pre ++ Stmt.branch v onYes onNo :: Stmt.label onYes :: (yes ++
        Stmt.jump done :: Stmt.label onNo :: (no ++ [Stmt.label done]))) P := by
  obtain ⟨Γ₁, hfp₁, h₁⟩ := hc
  obtain ⟨Γ₂, hfp₂, h₂⟩ := hys
  obtain ⟨Γ₃, hfp₃, h₃⟩ := hns
  refine ⟨fun l => if l ∈ c then Γ₁ l else if l ∈ ys then Γ₂ l else if l ∈ ns then Γ₃ l else P,
    fun l hl => ?_, fun Γ hΓ => ?_⟩
  · dsimp only
    split_ifs with h h h
    exacts [hfp₁ l h, hfp₂ l h, hfp₃ l h, hfp]
  · have hΓ₁ : ∀ l ∈ c, Γ l = Γ₁ l := by grind
    have hΓ₂ : ∀ l ∈ ys, Γ l = Γ₂ l := by grind
    have hΓ₃ : ∀ l ∈ ns, Γ l = Γ₃ l := by grind
    have hyes : Γ onYes = P := by grind
    have hno : Γ onNo = P := by grind
    have hdone : Γ done = P := by grind
    have hrest := (h₃ Γ hΓ₃).append (assigns_label hdone subset_rfl assigns_nil)
    have hjump := assigns_jump hdone.subset (assigns_label hno (Set.subset_univ _) hrest)
    have hbranch := assigns_branch hv (hyes.subset.trans hP) (hno.subset.trans hP)
      (assigns_label hyes (Set.subset_univ _) ((h₂ Γ hΓ₂).append hjump))
    simpa only [List.map_append, List.map_cons, List.map_nil] using (h₁ Γ hΓ₁).append hbranch

/-- Each round of a loop starts with what was written before it, and so does what follows. -/
theorem AssignsWithin.loop {c ss : List Label} {pre body : List Stmt} {v : Expr}
    {again enter done : Label} (hfp : fp ∈ P) (hc : AssignsWithin fp c P pre Q) (hP : P ⊆ Q)
    (hv : ∀ u ∈ v.temps, u ∈ Q) (hss : AssignsWithin fp ss P body P)
    (hnd : (again :: (c ++ enter :: (ss ++ [done]))).Nodup) :
    AssignsWithin fp (again :: (c ++ enter :: (ss ++ [done]))) P
      (Stmt.label again :: (pre ++ Stmt.branch v enter done :: Stmt.label enter :: (body ++
        [Stmt.jump again, Stmt.label done]))) P := by
  obtain ⟨Γ₁, hfp₁, h₁⟩ := hc
  obtain ⟨Γ₂, hfp₂, h₂⟩ := hss
  refine ⟨fun l => if l ∈ c then Γ₁ l else if l ∈ ss then Γ₂ l else P, fun l hl => ?_,
    fun Γ hΓ => ?_⟩
  · dsimp only
    split_ifs with h h
    exacts [hfp₁ l h, hfp₂ l h, hfp]
  · have hΓ₁ : ∀ l ∈ c, Γ l = Γ₁ l := by grind
    have hΓ₂ : ∀ l ∈ ss, Γ l = Γ₂ l := by grind
    have hagain : Γ again = P := by grind
    have henter : Γ enter = P := by grind
    have hdone : Γ done = P := by grind
    have hjump := assigns_jump hagain.subset (assigns_label hdone (Set.subset_univ _) assigns_nil)
    have hbranch := assigns_branch hv (henter.subset.trans hP) (hdone.subset.trans hP)
      (assigns_label henter (Set.subset_univ _) ((h₂ Γ hΓ₂).append hjump))
    have hround := assigns_label hagain subset_rfl ((h₁ Γ hΓ₁).append hbranch)
    simpa only [List.map_append, List.map_cons, List.map_nil] using hround

end Within

theorem Stmt.labels_cond {c : Expr} {onYes onNo done : Label} {ys ns : List Stmt} :
    (Stmt.seq ([Stmt.branch c onYes onNo, Stmt.label onYes] ++ ys ++
      [Stmt.jump done, Stmt.label onNo] ++ ns ++ [Stmt.label done])).labels =
      c.labels ++ onYes :: (Stmt.listLabels ys ++ onNo :: (Stmt.listLabels ns ++ [done])) := by
  simp [Stmt.labels, Stmt.listLabels]

theorem Stmt.labels_loop {c : Expr} {again enter done : Label} {ss : List Stmt} :
    (Stmt.seq ([Stmt.label again, Stmt.branch c enter done, Stmt.label enter] ++ ss ++
      [Stmt.jump again, Stmt.label done])).labels =
      again :: (c.labels ++ enter :: (Stmt.listLabels ss ++ [done])) := by
  simp [Stmt.labels, Stmt.listLabels]

variable {loc : Location} {fp : Temp}

mutual

/-- The code of an expression keeps what was written, and has written the temporaries of the value
it leaves. -/
theorem Expr.Structured.assigns :
    ∀ {e : Expr}, e.Structured → e.Confined fp → e.labels.Nodup →
      ∀ {s s' : Session} {pre : List Stmt} {val : Expr}, e.canonize loc s = .ok (pre, val) s' →
      ∀ {P : Set Temp}, fp ∈ P →
        ∃ Q, P ⊆ Q ∧ (∀ t ∈ val.temps, t ∈ Q) ∧ AssignsWithin fp e.labels P pre Q
  | _, .const _, _, _, _, _, _, _, h, P, _ => by
    obtain ⟨rfl, rfl, -⟩ := Expr.canonize_const h
    exact ⟨P, subset_rfl, by simp [Expr.temps], assignsWithin_nil⟩
  | _, .name _, _, _, _, _, _, _, h, P, _ => by
    obtain ⟨rfl, rfl, -⟩ := Expr.canonize_name h
    exact ⟨P, subset_rfl, by simp [Expr.temps], assignsWithin_nil⟩
  | _, .temp t, hconf, _, _, _, _, _, h, P, hfp => by
    obtain ⟨rfl, rfl, -⟩ := Expr.canonize_temp h
    obtain rfl : t = fp := hconf
    exact ⟨P, subset_rfl, by simpa [Expr.temps] using hfp, assignsWithin_nil⟩
  | _, .mem ha, hconf, hnd, _, _, _, _, h, P, hfp => by
    obtain ⟨pre, addr, s₁, hc, rfl, rfl, -⟩ := Expr.canonize_mem h
    obtain ⟨Q, hP, hval, hpre⟩ := ha.assigns hconf hnd hc hfp
    exact ⟨_, hP.trans (Set.subset_insert _ Q), by simp [Expr.temps],
      hpre.set (v := .mem addr) hval _⟩
  | _, .binary hl hr, hconf, hnd, s, _, _, _, h, P, hfp => by
    obtain ⟨preL, l, s₁, preR, r, s₂, hcl, hcr, rfl, rfl, -⟩ := Expr.canonize_binary h
    obtain ⟨hndl, hndr, -⟩ := List.nodup_append.mp hnd
    obtain ⟨Q₁, hP₁, hval₁, hpre₁⟩ := hl.assigns hconf.1 hndl hcl hfp
    obtain ⟨Q₂, hP₂, hval₂, hpre₂⟩ := hr.assigns hconf.2 hndr hcr
      (Set.mem_insert_of_mem ⟨s.names.temps⟩ (hP₁ hfp))
    have hboth := (hpre₁.set hval₁ _).append (hpre₂.set hval₂ ⟨s₁.names.temps⟩) hnd
    refine ⟨_, ?_, ?_, by simpa [Expr.labels] using hboth⟩
    · exact hP₁.trans ((Set.subset_insert _ _).trans (hP₂.trans (Set.subset_insert _ _)))
    · simpa [Expr.temps] using Or.inr (hP₂ (Set.mem_insert _ _))
  | _, .unary he, hconf, hnd, _, _, _, _, h, P, hfp => by
    obtain ⟨val, hc, rfl⟩ := Expr.canonize_unary h
    exact he.assigns hconf hnd hc hfp
  | _, .call hs, hconf, hnd, _, _, _, _, h, P, hfp => by
    obtain ⟨vals, hc, rfl⟩ := Expr.canonize_call h
    exact hs.assigns hconf hnd hc hfp
  | _, .after hst he, hconf, hnd, _, _, _, _, h, P, hfp => by
    obtain ⟨code, s₁, pre, hc, hv, rfl⟩ := Expr.canonize_after h
    obtain ⟨hnds, hnde, -⟩ := List.nodup_append.mp hnd
    obtain ⟨Q, hP, hval, hpre⟩ := he.assigns hconf.2 hnde hv hfp
    exact ⟨Q, hP, hval, (hst.assigns hconf.1 hnds hc hfp).append hpre hnd⟩

theorem Expr.AllStructured.assigns :
    ∀ {es : List Expr}, Expr.AllStructured es → Expr.AllConfined fp es →
      (Expr.listLabels es).Nodup → ∀ {s s' : Session} {pre : List Stmt} {vals : List Expr},
      Expr.canonizeArgs loc es s = .ok (pre, vals) s' → ∀ {P : Set Temp}, fp ∈ P →
        ∃ Q, P ⊆ Q ∧ (∀ t ∈ Expr.listTemps vals, t ∈ Q) ∧
          AssignsWithin fp (Expr.listLabels es) P pre Q
  | _, .nil, _, _, _, _, _, _, h, P, _ => by
    obtain ⟨rfl, rfl, -⟩ := Expr.canonizeArgs_nil h
    exact ⟨P, subset_rfl, by simp [Expr.listTemps], assignsWithin_nil⟩
  | _, .cons he hes, hconf, hnd, s, _, _, _, h, P, hfp => by
    obtain ⟨pre, val, s₁, rest, ts, hc, hcs, rfl, rfl⟩ := Expr.canonizeArgs_cons h
    obtain ⟨hnde, hndes, -⟩ := List.nodup_append.mp hnd
    obtain ⟨Q₁, hP₁, hval₁, hpre₁⟩ := he.assigns hconf.1 hnde hc hfp
    obtain ⟨Q₂, hP₂, hvals, hpre₂⟩ := hes.assigns hconf.2 hndes hcs
      (Set.mem_insert_of_mem ⟨s.names.temps⟩ (hP₁ hfp))
    have hboth := (hpre₁.set hval₁ _).append hpre₂ hnd
    refine ⟨Q₂, ?_, ?_, by simpa [Expr.listLabels] using hboth⟩
    · exact hP₁.trans ((Set.subset_insert _ _).trans hP₂)
    · simpa [Expr.listTemps, Expr.temps] using ⟨hP₂ (Set.mem_insert _ _), hvals⟩

theorem Stmt.Structured.assigns :
    ∀ {st : Stmt}, st.Structured → st.Confined fp → st.labels.Nodup →
      ∀ {s s' : Session} {code : List Stmt}, st.canonize loc s = .ok code s' →
      ∀ {P : Set Temp}, fp ∈ P → AssignsWithin fp st.labels P code P
  | _, .move (.mem ha) hv, hconf, hnd, s, _, _, h, P, hfp => by
    obtain ⟨preA, a, s₁, preV, v, s₂, hca, hcv, rfl, -⟩ := Stmt.canonize_store h
    obtain ⟨hnda, hndv, -⟩ := List.nodup_append.mp hnd
    obtain ⟨Q₁, hP₁, hval₁, hpre₁⟩ := ha.assigns hconf.2.1 hnda hca hfp
    obtain ⟨Q₂, hP₂, hval₂, hpre₂⟩ := hv.assigns hconf.2.2 hndv hcv
      (Set.mem_insert_of_mem ⟨s.names.temps⟩ (hP₁ hfp))
    have hboth := (hpre₁.set hval₁ _).append (hpre₂.set hval₂ ⟨s₁.names.temps⟩) hnd
    have hstore := hboth.read (Stmt.move (.mem (.temp ⟨s.names.temps⟩)) (.temp ⟨s₁.names.temps⟩))
      rfl (by simpa [Stmt.temps, Expr.temps] using Or.inr (hP₂ (Set.mem_insert _ _)))
    have hkeep : P ⊆ insert ⟨s₁.names.temps⟩ Q₂ :=
      hP₁.trans ((Set.subset_insert _ _).trans (hP₂.trans (Set.subset_insert _ _)))
    simpa [Stmt.labels, Expr.labels] using hstore.mono subset_rfl hkeep
  | _, .move (.temp t) _, hconf, _, _, _, _, _, _, _ => absurd rfl (hconf.1 t)
  | _, .move (.const _) _, _, _, _, _, _, h, _, _ | _, .move (.name _) _, _, _, _, _, _, h, _, _
  | _, .move (.binary ..) _, _, _, _, _, _, h, _, _ | _, .move (.unary _) _, _, _, _, _, _, h, _, _
  | _, .move (.call _) _, _, _, _, _, _, h, _, _
  | _, .move (.after ..) _, _, _, _, _, _, h, _, _ => by
    rcases Stmt.canonize_move h with ⟨_, hd⟩ | ⟨_, hd⟩ <;> cases hd
  | _, .eval he, hconf, hnd, _, _, _, h, P, hfp => by
    obtain ⟨pre, v, hc, rfl⟩ := Stmt.canonize_eval h
    obtain ⟨Q, hP, hval, hpre⟩ := he.assigns hconf hnd hc hfp
    exact (hpre.read (.eval v) rfl hval).mono subset_rfl hP
  | _, .seq hss, hconf, hnd, _, _, _, h, _, hfp => hss.assigns hconf hnd (Stmt.canonize_seq h) hfp
  | _, @Stmt.Structured.cond c onYes onNo done ys ns hc hys hns, hconf, hnd, _, _, _, h, P,
      hfp => by
      obtain ⟨pre, v, s₁, yes, s₂, no, hpre, hyes, hno, rfl⟩ :=
        Stmt.canonizeAll_cond (Stmt.canonize_seq h)
      simp only [Stmt.Confined, Stmt.allConfined_append, Stmt.AllConfined] at hconf
      obtain ⟨⟨⟨⟨⟨hcc, -⟩, hyc⟩, -⟩, hnc⟩, -⟩ := hconf
      rw [Stmt.labels_cond] at hnd ⊢
      obtain ⟨hndc, hnd₁, -⟩ := List.nodup_append.mp hnd
      obtain ⟨hndy, hnd₂, -⟩ := List.nodup_append.mp (List.nodup_cons.mp hnd₁).2
      obtain ⟨hndn, -, -⟩ := List.nodup_append.mp (List.nodup_cons.mp hnd₂).2
      obtain ⟨Q, hP, hval, hc⟩ := hc.assigns hcc hndc hpre hfp
      exact hc.cond hfp hP hval (hys.assigns hyc hndy hyes hfp) (hns.assigns hnc hndn hno hfp) hnd
  | _, @Stmt.Structured.loop c again enter done ss hc hss, hconf, hnd, _, _, _, h, P, hfp => by
    obtain ⟨pre, v, s₁, body, hpre, hbody, rfl⟩ := Stmt.canonizeAll_loop (Stmt.canonize_seq h)
    simp only [Stmt.Confined, Stmt.allConfined_append, Stmt.AllConfined] at hconf
    obtain ⟨⟨⟨-, hcc, -⟩, hsc⟩, -⟩ := hconf
    rw [Stmt.labels_loop] at hnd ⊢
    obtain ⟨hndc, hnd₁, -⟩ := List.nodup_append.mp (List.nodup_cons.mp hnd).2
    obtain ⟨hnds, -, -⟩ := List.nodup_append.mp (List.nodup_cons.mp hnd₁).2
    obtain ⟨Q, hP, hval, hc⟩ := hc.assigns hcc hndc hpre hfp
    exact hc.loop hfp hP hval (hss.assigns hsc hnds hbody hfp) hnd

theorem Stmt.AllStructured.assigns :
    ∀ {ss : List Stmt}, Stmt.AllStructured ss → Stmt.AllConfined fp ss →
      (Stmt.listLabels ss).Nodup → ∀ {s s' : Session} {code : List Stmt},
      Stmt.canonizeAll loc ss s = .ok code s' → ∀ {P : Set Temp}, fp ∈ P →
        AssignsWithin fp (Stmt.listLabels ss) P code P
  | _, .nil, _, _, _, _, _, h, P, _ => by
    obtain ⟨rfl, -⟩ := Stmt.canonizeAll_nil h
    exact assignsWithin_nil
  | _, .cons hst hss, hconf, hnd, _, _, _, h, P, hfp => by
    obtain ⟨code, s₁, rest, hc, hr, rfl⟩ := Stmt.canonizeAll_cons h
    obtain ⟨hnds, hndss, -⟩ := List.nodup_append.mp hnd
    exact (hst.assigns hconf.1 hnds hc hfp).append (hss.assigns hconf.2 hndss hr hfp) hnd

end

end Ir

/-! ## Chunks -/

/-- Every label that a footprint has was handed out. -/
def Footprint.Handed (names : Names) (f : Footprint) : Prop :=
  (∀ l ∈ f.goals, names.HasLabel l) ∧ ∀ l ∈ f.mark, names.HasLabel l

/-- Linear code assigns what the code it is made from assigns.  The labels that are drawn get what
was written at their branch. -/
theorem Assigns.linearizes {fp : Temp} {ss lin : List Ir.Stmt} {n n' : Names} {Q : Set Temp}
    (h : Linearizes n ss lin n') :
    ∀ {Γ : Written} {P : Set Temp}, Assigns Γ P (ss.map Ir.Stmt.footprint) Q →
      (∀ f ∈ ss.map Ir.Stmt.footprint, f.Handed n) → (∀ l, fp ∈ Γ l) → fp ∈ P →
      ∃ Γ' : Written, (∀ l, n.HasLabel l → Γ' l = Γ l) ∧ (∀ l, fp ∈ Γ' l) ∧
        Assigns Γ' P (lin.map Ir.Stmt.footprint) Q := by
  induction h with
  | nil => exact fun hP _ hΓ _ => ⟨_, fun _ _ => rfl, hΓ, hP⟩
  | @branch n _ _ pos neg ss _ _ ih =>
    rintro Γ P ⟨hst, hss⟩ hold hΓ hfp
    obtain ⟨hhere, hrest⟩ := List.forall_mem_cons.mp hold
    let fall : Label := ⟨n.labels.size⟩
    have hne : ∀ l, n.HasLabel l → l ≠ fall := by
      rintro l hl rfl
      exact Nat.lt_irrefl _ hl
    have hss' : Assigns (Function.update Γ fall P) Set.univ (ss.map Ir.Stmt.footprint) Q :=
      hss.congr fun f hf =>
        ⟨fun l hl => Function.update_of_ne (hne l ((hrest f hf).1 l hl)) _ _,
          fun l hl => Function.update_of_ne (hne l ((hrest f hf).2 l hl)) _ _⟩
    have hnew : ∀ l, n.HasLabel l → n.newLabel.2.HasLabel l := fun l hl =>
      Nat.lt_of_lt_of_le hl (Names.labels_le (Names.le_newLabel n))
    obtain ⟨Γ', hΓ', hfp', hlin⟩ := ih hss'
      (fun f hf => ⟨fun l hl => hnew l ((hrest f hf).1 l hl),
        fun l hl => hnew l ((hrest f hf).2 l hl)⟩)
      (fun l => by
        by_cases hl : l = fall
        · subst hl
          simpa using hfp
        · simpa [Function.update_of_ne hl] using hΓ l) trivial
    have hold' : ∀ l, n.HasLabel l → Γ' l = Γ l := fun l hl =>
      (hΓ' l (hnew l hl)).trans (Function.update_of_ne (hne l hl) _ _)
    have hfall : Γ' fall = P := by
      refine (hΓ' fall ?_).trans (Function.update_self _ _ _)
      simp [fall, Names.HasLabel]
    have hpos := hold' pos (hhere.1 pos (by simp [Ir.Stmt.footprint]))
    have hneg := hold' neg (hhere.1 neg (by simp [Ir.Stmt.footprint]))
    refine ⟨Γ', hold', hfp', Ir.assigns_branch hst.reads ?_ hfall.subset
      (Ir.assigns_label hfall (Set.subset_univ _) (Ir.assigns_jump ?_ hlin))⟩
    · exact hpos.subset.trans (hst.goals pos (by simp [Ir.Stmt.footprint]))
    · exact hneg.subset.trans (hst.goals neg (by simp [Ir.Stmt.footprint]))
  | other _ _ ih =>
    rintro Γ P ⟨hst, hss⟩ hold hΓ hfp
    obtain ⟨hhere, hrest⟩ := List.forall_mem_cons.mp hold
    obtain ⟨Γ', hΓ', hfp', hlin⟩ := ih hss hrest hΓ (Footprint.mem_next hΓ hfp)
    have hagree : Footprint.Agree Γ Γ' _ :=
      ⟨fun l hl => hΓ' l (hhere.1 l hl), fun l hl => hΓ' l (hhere.2 l hl)⟩
    refine ⟨Γ', hΓ', hfp', hst.congr hagree, ?_⟩
    rw [Footprint.next_congr hagree]
    exact hlin

theorem Ir.Stmt.goals_footprint (st : Ir.Stmt) : st.footprint.goals = st.goals := by
  cases st with
  | move dst src => cases dst <;> rfl
  | eval | branch | jump | label | seq => rfl

theorem Ir.Stmt.labels_of_mark {st : Ir.Stmt} {l : Label} (h : l ∈ st.footprint.mark) :
    l ∈ st.labels := by
  cases st with
  | label l' => simpa [Ir.Stmt.footprint, Ir.Stmt.labels, eq_comm] using h
  | move dst src => cases dst <;> cases h
  | eval | branch | jump | seq => cases h

/-- Code whose labels were handed out, and that goes to them only, has no other labels. -/
theorem Ir.StaysIn.handed {code : List Ir.Stmt} {labels : List Label} {names : Names}
    (h : Ir.StaysIn code labels) (hlabels : Ir.Stmt.listLabels code ⊆ labels)
    (hold : ∀ l ∈ labels, names.HasLabel l) :
    ∀ f ∈ code.map Ir.Stmt.footprint, f.Handed names := by
  intro f hf
  obtain ⟨st, hst, rfl⟩ := List.mem_map.mp hf
  refine ⟨fun l hl => hold l (h st hst (st.goals_footprint ▸ hl)), fun l hl => hold l (hlabels ?_)⟩
  exact Ir.Stmt.mem_listLabels hst (Ir.Stmt.labels_of_mark hl)

theorem Ir.StaysIn.framed_handed {code : List Ir.Stmt} {labels : List Label} {names : Names}
    {entry exit : Label} (h : Ir.StaysIn code labels) (hlabels : Ir.Stmt.listLabels code ⊆ labels)
    (hold : ∀ l ∈ labels, names.HasLabel l) (hentry : names.HasLabel entry)
    (hexit : names.HasLabel exit) :
    ∀ f ∈ (Ir.Stmt.label entry :: code ++ [Ir.Stmt.jump exit]).map Ir.Stmt.footprint,
      f.Handed names := by
  rw [List.map_append, List.map_cons, List.cons_append, List.forall_mem_cons,
    List.forall_mem_append]
  refine ⟨⟨?_, ?_⟩, h.handed hlabels hold, ?_⟩
  · simp [Ir.Stmt.footprint]
  · simpa [Ir.Stmt.footprint] using hentry
  · simpa [Ir.Stmt.footprint, Footprint.Handed] using hexit

/-- Code between an entry and an exit, labels that it does not have.  The entry gets the frame
pointer, the exit the result too. -/
theorem Ir.AssignsWithin.framed {fp rv : Temp} {labels : List Label} {code : List Ir.Stmt}
    {Q : Set Temp} {entry exit : Label} (h : Ir.AssignsWithin fp labels {fp} code Q) (hfp : fp ∈ Q)
    (hrv : rv ∈ Q) (hentry : entry ∉ labels) (hexit : exit ∉ labels) (hne : entry ≠ exit) :
    ∃ Γ : Written, (∀ l, fp ∈ Γ l) ∧ rv ∈ Γ exit ∧
      Assigns Γ {fp} ((Ir.Stmt.label entry :: code ++ [Ir.Stmt.jump exit]).map Ir.Stmt.footprint)
        ∅ := by
  obtain ⟨Γ₀, hfp₀, h⟩ := h
  let Γ : Written := fun l =>
    if l ∈ labels then Γ₀ l else if l = exit then {rv, fp} else {fp}
  have hΓexit : Γ exit = {rv, fp} := by simp [Γ, hexit]
  have hΓentry : Γ entry = {fp} := by simp [Γ, hentry, hne]
  refine ⟨Γ, fun l => ?_, by simp [hΓexit], ?_⟩
  · dsimp only [Γ]
    split_ifs with h₁ h₂
    · exact hfp₀ l h₁
    · simp
    · simp
  · have hjump : Assigns Γ Q [(Ir.Stmt.jump exit).footprint] ∅ := by
      refine Ir.assigns_jump ?_ (Set.empty_subset _)
      rw [hΓexit]
      exact Set.insert_subset hrv (Set.singleton_subset_iff.mpr hfp)
    have hcode := (h Γ fun l hl => if_pos hl).append hjump
    simpa using Ir.assigns_label hΓentry subset_rfl hcode

/-- In the code of a chunk the frame pointer alone is read before it is written, and the result is
written on every way to the exit. -/
def CodeChunk.Assigned (c : CodeChunk) : Prop :=
  ∃ Γ : Written, (∀ l, c.frame.fp ∈ Γ l) ∧ c.frame.rv ∈ Γ c.exit ∧
    Assigns Γ {c.frame.fp} (c.stmts.map Ir.Stmt.footprint) ∅

theorem CodeChunk.build_assigned {layout : Layout} {code : Lowered} {head : Head} {body : Expr}
    {s s' : Session} {c : CodeChunk} {n : Names}
    (h : CodeChunk.build layout code head body s = .ok c s')
    (hbody : Lowering.HasBody layout n code head body) (hle : n ≤ s.names) : c.Assigned := by
  obtain ⟨value, flat, s₁, hf, hv, hflat, hstmts, hentry, hexit, -⟩ := CodeChunk.build_ok h
  obtain ⟨frame, ir, t, t', r, r', hframe, hir, hler, hent⟩ := hbody
  obtain rfl : c.frame = frame := Option.some.inj (hf.symm.trans hframe)
  obtain rfl : value = ir := Option.some.inj (hv.symm.trans hent)
  have hchange := (Lowering.expr_lowers hir).change
  have hstruct := (Lowering.expr_lowers hir).structured
  have hold : ∀ l ∈ value.labels, l.index < s.names.labels.size := fun l hl =>
    Nat.lt_of_lt_of_le (hchange.supplies.hasLabel hl) (Names.labels_le (Names.le_trans hler hle))
  have hin : c.entry ∉ value.labels := fun hl => Nat.lt_irrefl _ (hentry ▸ hold _ hl)
  have hout : c.exit ∉ value.labels := fun hl => by
    have hlt := hold _ hl
    rw [hexit] at hlt
    exact Nat.not_succ_lt_self hlt
  have hsize : s.names.labels.size + 2 ≤ s₁.names.labels.size := by
    have h₁ := Names.labels_le (Ir.Stmt.canonizes hflat).le
    simpa only [Names.newLabel_labels, Array.size_push] using h₁
  have hmarked : s₁.names.HasLabel c.entry := by
    rw [hentry]
    exact Nat.lt_of_lt_of_le (Nat.lt_succ_of_lt (Nat.lt_succ_self _)) hsize
  have hleft : s₁.names.HasLabel c.exit := by
    rw [hexit]
    exact Nat.lt_of_succ_le hsize
  have hhanded := ((Ir.Stmt.Structured.move (.temp c.frame.rv) hstruct).staysIn hflat).framed_handed
    (fun l hl => Ir.Stmt.labels_canonize hflat ▸ hl)
    (fun l hl => Nat.lt_of_lt_of_le (hold l hl) (Nat.le_trans (Nat.le_add_right _ 2) hsize))
    hmarked hleft
  obtain ⟨pre, val, hval, rfl⟩ := Ir.Stmt.canonize_set hflat
  have hconf := (Lowering.expr_lowers hir).confined rfl
  obtain ⟨Q, hP, htemps, hpre⟩ := hstruct.assigns hconf hchange.supplies.nodup
    hval (Set.mem_singleton c.frame.fp)
  have hwhole := (hpre.set htemps ⟨s.marked.names.temps⟩).set (v := .temp ⟨s.marked.names.temps⟩)
    (by simp [Ir.Expr.temps]) c.frame.rv
  obtain ⟨Γ, hfp, hrv, hall⟩ := hwhole.framed
    (Set.mem_insert_of_mem _ (Set.mem_insert_of_mem _ (hP (Set.mem_singleton _))))
    (Set.mem_insert _ _) hin hout (by simp [hentry, hexit])
  have hall' : Assigns Γ {c.frame.fp} ((Ir.Stmt.label c.entry :: (pre ++
      [Ir.Stmt.move (.temp ⟨s.marked.names.temps⟩) val,
        Ir.Stmt.move (.temp c.frame.rv) (.temp ⟨s.marked.names.temps⟩)]) ++
          [Ir.Stmt.jump c.exit]).map Ir.Stmt.footprint) ∅ := by
    simpa using hall
  obtain ⟨Γ', hΓ', hfp', hlin⟩ := Assigns.linearizes hstmts hall' hhanded hfp (Set.mem_singleton _)
  refine ⟨Γ', hfp', ?_, hlin⟩
  rw [hΓ' c.exit hleft]
  exact hrv

end MmixBackend
