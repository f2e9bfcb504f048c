import MmixBackend.Proofs.Liveness
import MmixBackend.Target.Interference

/-!
# The interference graph is what it should be

The graph of a function has a vertex for each temporary in its instructions apart from the frame
pointer, and one for the return value unless it was spilled.  Two of them are neighbours exactly
when one is written while the other is live.

Both are read off the way the graph is built: adding vertices leaves neighbours alone, and adding
interferences leaves the vertices alone.
-/

namespace MmixBackend

namespace Interference

variable {g g₁ g' : Interference} {a b t u x y : Temp}

/-- The colour of a temporary. -/
def color? (g : Interference) (t : Temp) : Option Nat := g.vertices[t]? >>= (·.color)

/-! ## Adding vertices -/

/-- The graph with more vertices and the same neighbours. -/
structure Adds (g : Interference) (new : Temp → Prop) (g' : Interference) : Prop where
  vertices : ∀ t, t ∈ g'.vertices ↔ t ∈ g.vertices ∨ new t
  neighbours : ∀ t, g'.neighbours t = g.neighbours t
  color? : ∀ t, g'.color? t = g.color? t

theorem adds_none {new : Temp → Prop} (h : ∀ t, ¬ new t) (g : Interference) : Adds g new g :=
  ⟨fun t => by simp [h t], fun _ => rfl, fun _ => rfl⟩

theorem Adds.trans {new new' : Temp → Prop} (h : Adds g new g₁) (h' : Adds g₁ new' g') :
    Adds g (fun t => new t ∨ new' t) g' :=
  ⟨fun t => by rw [h'.vertices, h.vertices, or_assoc],
    fun t => (h'.neighbours t).trans (h.neighbours t), fun t => (h'.color? t).trans (h.color? t)⟩

theorem Adds.congr {new new' : Temp → Prop} (h : Adds g new g') (hiff : ∀ t, new t ↔ new' t) :
    Adds g new' g' :=
  ⟨fun t => by rw [h.vertices, hiff], h.neighbours, h.color?⟩

theorem adds_foldl {α : Type} {step : Interference → α → Interference} {new : α → Temp → Prop}
    (h : ∀ g a, Adds g (new a) (step g a)) (as : List α) :
    ∀ g, Adds g (fun t => ∃ a ∈ as, new a t) (as.foldl step g) := by
  induction as with
  | nil => exact adds_none (by simp)
  | cons a as ih => exact fun g => ((h g a).trans (ih _)).congr (by simp)

theorem adds_addVertex (g : Interference) (t : Temp) : Adds g (· = t) (g.addVertex t) := by
  rw [addVertex]
  split
  · next h =>
    refine ⟨fun u => ?_, fun _ => rfl, fun _ => rfl⟩
    refine ⟨Or.inl, fun hu => hu.elim id ?_⟩
    rintro rfl
    exact h
  · next h =>
    have hnone : g.vertices[t]? = none := Std.ExtTreeMap.getElem?_eq_none (by simpa using h)
    refine ⟨fun u => ?_, fun u => ?_, fun u => ?_⟩
    · rw [Std.ExtTreeMap.mem_insert, Std.LawfulEqOrd.compare_eq_iff_eq, or_comm, eq_comm]
    · simp only [neighbours, Std.ExtTreeMap.getElem?_insert, Std.LawfulEqOrd.compare_eq_iff_eq]
      by_cases hu : t = u
      · subst hu
        rw [if_pos rfl, hnone]
      · rw [if_neg hu]
    · simp only [Interference.color?, Std.ExtTreeMap.getElem?_insert,
        Std.LawfulEqOrd.compare_eq_iff_eq]
      by_cases hu : t = u
      · subst hu
        rw [if_pos rfl, hnone]
        rfl
      · rw [if_neg hu]

theorem adds_addInstr (fp : Temp) (g : Interference) (i : Instr) :
    Adds g (fun t => t ≠ fp ∧ (t ∈ i.uses ∨ t ∈ i.defs)) (g.addInstr fp i) := by
  have hstep : ∀ (g : Interference) (u : Temp),
      Adds g (fun t => u ≠ fp ∧ t = u) (if u = fp then g else g.addVertex u) := by
    intro g u
    split
    · next hu => exact adds_none (by simp [hu]) g
    · next hu => exact (adds_addVertex g u).congr (by simp [hu])
  refine (adds_foldl hstep (i.uses ++ i.defs) g).congr fun t => ?_
  constructor
  · rintro ⟨u, hu, hfp, rfl⟩
    exact ⟨hfp, List.mem_append.mp hu⟩
  · rintro ⟨hfp, ht⟩
    exact ⟨t, List.mem_append.mpr ht, hfp, rfl⟩

/-! ## Adding interferences -/

/-- The graph with the same vertices and more neighbours: those of the given pairs that are
different vertices. -/
structure Links (g : Interference) (pair : Temp → Temp → Prop) (g' : Interference) : Prop where
  vertices : ∀ t, t ∈ g'.vertices ↔ t ∈ g.vertices
  neighbours : ∀ x y, y ∈ g'.neighbours x ↔
    y ∈ g.neighbours x ∨ x ≠ y ∧ x ∈ g.vertices ∧ y ∈ g.vertices ∧ (pair x y ∨ pair y x)
  color? : ∀ t, g'.color? t = g.color? t

theorem links_none {pair : Temp → Temp → Prop} (h : ∀ x y, ¬ pair x y) (g : Interference) :
    Links g pair g :=
  ⟨fun _ => Iff.rfl, fun x y => by simp [h x y, h y x], fun _ => rfl⟩

theorem Links.trans {pair pair' : Temp → Temp → Prop} (h : Links g pair g₁)
    (h' : Links g₁ pair' g') : Links g (fun x y => pair x y ∨ pair' x y) g' := by
  refine ⟨fun t => (h'.vertices t).trans (h.vertices t), fun x y => ?_,
    fun t => (h'.color? t).trans (h.color? t)⟩
  rw [h'.neighbours, h.neighbours, h.vertices, h.vertices, or_assoc]
  refine or_congr_right ?_
  constructor
  · rintro (⟨hne, hx, hy, hp⟩ | ⟨hne, hx, hy, hp⟩)
    · exact ⟨hne, hx, hy, hp.imp Or.inl Or.inl⟩
    · exact ⟨hne, hx, hy, hp.imp Or.inr Or.inr⟩
  · rintro ⟨hne, hx, hy, (hp | hp) | (hp | hp)⟩
    · exact Or.inl ⟨hne, hx, hy, Or.inl hp⟩
    · exact Or.inr ⟨hne, hx, hy, Or.inl hp⟩
    · exact Or.inl ⟨hne, hx, hy, Or.inr hp⟩
    · exact Or.inr ⟨hne, hx, hy, Or.inr hp⟩

theorem Links.congr {pair pair' : Temp → Temp → Prop} (h : Links g pair g')
    (hiff : ∀ x y, pair x y ↔ pair' x y) : Links g pair' g' :=
  ⟨h.vertices, fun x y => by rw [h.neighbours, hiff, hiff], h.color?⟩

theorem links_foldl {α : Type} {step : Interference → α → Interference}
    {pair : α → Temp → Temp → Prop} (h : ∀ g a, Links g (pair a) (step g a)) (as : List α) :
    ∀ g, Links g (fun x y => ∃ a ∈ as, pair a x y) (as.foldl step g) := by
  induction as with
  | nil => exact links_none (by simp)
  | cons a as ih => exact fun g => ((h g a).trans (ih _)).congr (by simp)

theorem links_addEdge (g : Interference) (a b : Temp) :
    Links g (fun x y => x = a ∧ y = b) (g.addEdge a b) := by
  rw [addEdge]
  split
  · next h =>
    refine ⟨fun _ => Iff.rfl, fun x y => ⟨Or.inl, fun h' => h'.elim id ?_⟩, fun _ => rfl⟩
    simp only [Std.ExtTreeMap.contains_iff_mem] at h
    rintro ⟨hne, hx, hy, ⟨rfl, rfl⟩ | ⟨rfl, rfl⟩⟩
    · rcases h with h | h | h
      · exact absurd h hne
      · exact absurd hx h
      · exact absurd hy h
    · rcases h with h | h | h
      · exact absurd h hne.symm
      · exact absurd hy h
      · exact absurd hx h
  · next h =>
    simp only [Std.ExtTreeMap.contains_iff_mem, not_or, not_not] at h
    obtain ⟨hne, ha, hb⟩ := h
    obtain ⟨va, hva⟩ : ∃ v, g.vertices[a]? = some v :=
      ⟨_, Std.ExtTreeMap.getElem?_eq_some_getElem ha⟩
    obtain ⟨vb, hvb⟩ : ∃ v, g.vertices[b]? = some v :=
      ⟨_, Std.ExtTreeMap.getElem?_eq_some_getElem hb⟩
    refine ⟨fun t => by rw [Std.ExtTreeMap.mem_modify, Std.ExtTreeMap.mem_modify], fun x y => ?_,
      fun x => ?_⟩
    · simp only [neighbours, Std.ExtTreeMap.getElem?_modify, Std.LawfulEqOrd.compare_eq_iff_eq]
      by_cases hxb : b = x
      · subst hxb
        rw [if_pos rfl, if_neg hne, hvb]
        simp only [Option.map_some, TempSet.mem_insert]
        grind
      · rw [if_neg hxb]
        by_cases hxa : a = x
        · subst hxa
          rw [if_pos rfl, hva]
          simp only [Option.map_some, TempSet.mem_insert]
          grind
        · rw [if_neg hxa]
          grind
    · simp only [Interference.color?, Std.ExtTreeMap.getElem?_modify,
        Std.LawfulEqOrd.compare_eq_iff_eq]
      by_cases hxb : b = x
      · subst hxb
        rw [if_pos rfl, if_neg hne, hvb]
        rfl
      · rw [if_neg hxb]
        by_cases hxa : a = x
        · subst hxa
          rw [if_pos rfl, hva]
          rfl
        · rw [if_neg hxa]

theorem links_addDefs (fp : Temp) (g : Interference) (i : Instr) (liveOut : TempSet) :
    Links g (fun x y => x ≠ fp ∧ y ≠ fp ∧ x ∈ i.defs ∧ y ∈ liveOut)
      (g.addDefs fp i liveOut) := by
  have hedge : ∀ (d : Temp) (g : Interference) (o : Temp),
      Links g (fun x y => o ≠ fp ∧ x = d ∧ y = o) (if o = fp then g else g.addEdge d o) := by
    intro d g o
    split
    · next ho => exact links_none (by simp [ho]) g
    · next ho => exact (links_addEdge g d o).congr (by simp [ho])
  have hdef : ∀ (g : Interference) (d : Temp),
      Links g (fun x y => d ≠ fp ∧ x = d ∧ y ≠ fp ∧ y ∈ liveOut)
        (if d = fp then g
          else liveOut.toList.foldl (fun g o => if o = fp then g else g.addEdge d o) g) := by
    intro g d
    split
    · next hd => exact links_none (by simp [hd]) g
    · next hd =>
      refine (links_foldl (hedge d) liveOut.toList g).congr fun x y => ?_
      constructor
      · rintro ⟨o, ho, hfp, rfl, rfl⟩
        exact ⟨hd, rfl, hfp, Std.ExtTreeSet.mem_toList.mp ho⟩
      · rintro ⟨-, rfl, hfp, hy⟩
        exact ⟨y, Std.ExtTreeSet.mem_toList.mpr hy, hfp, rfl, rfl⟩
  refine (links_foldl hdef i.defs g).congr fun x y => ?_
  constructor
  · rintro ⟨d, hd, hfp, rfl, hy, hlive⟩
    exact ⟨hfp, hy, hd, hlive⟩
  · rintro ⟨hfp, hy, hd, hlive⟩
    exact ⟨x, hd, hfp, rfl, hy, hlive⟩

theorem links_addFlow (fp : Temp) (ps : List (Instr × TempSet)) :
    ∀ g, Links g (fun x y => ∃ p ∈ ps, x ≠ fp ∧ y ≠ fp ∧ x ∈ p.1.defs ∧ y ∈ p.2)
      (addFlow fp g ps) := by
  induction ps with
  | nil => exact links_none (by simp)
  | cons p ps ih =>
    exact fun g => ((links_addDefs fp g p.1 p.2).trans (ih _)).congr (by simp)

end Interference

/-! ## The graph of code -/

namespace Interference

/-- Neighbours are different vertices, and each is the other's neighbour. -/
structure Simple (g : Interference) : Prop where
  symm : ∀ ⦃x y⦄, y ∈ g.neighbours x → x ∈ g.neighbours y
  ne : ∀ ⦃x y⦄, y ∈ g.neighbours x → x ≠ y
  vertex : ∀ ⦃x y⦄, y ∈ g.neighbours x → y ∈ g.vertices

theorem neighbours_empty (t : Temp) : ({} : Interference).neighbours t = ∅ := by
  simp [neighbours]

end Interference

namespace Code

variable {c : Code} {live : Liveness} {t x y : Temp}

/-- One of the temporaries is written while the other is live. -/
def Clash (c : Code) (live : Liveness) (x y : Temp) : Prop :=
  ∃ i instr, c.instrs[i]? = some instr ∧ x ∈ instr.defs ∧ y ∈ live.liveOut.getD i ∅

/-- The graph before interferences are added. -/
def isolated (c : Code) : Interference :=
  let g := c.instrs.foldl (Interference.addInstr c.frame.fp) {}
  if c.slots.contains c.frame.rv then g else g.addVertex c.frame.rv

theorem adds_isolated (c : Code) :
    Interference.Adds {} (fun t => t ≠ c.frame.fp ∧ c.Mentions t ∨ t ∈ c.liveAtExit)
      c.isolated := by
  have hadd := Interference.adds_foldl (Interference.adds_addInstr c.frame.fp) c.instrs {}
  have hmention : ∀ t, (∃ i ∈ c.instrs, t ≠ c.frame.fp ∧ (t ∈ i.uses ∨ t ∈ i.defs)) ↔
      t ≠ c.frame.fp ∧ c.Mentions t := by
    intro t
    constructor
    · rintro ⟨i, hi, hfp, ht⟩
      exact ⟨hfp, i, hi, ht⟩
    · rintro ⟨hfp, i, hi, ht⟩
      exact ⟨i, hi, hfp, ht⟩
  rw [isolated]
  split
  · next h =>
    refine hadd.congr fun t => ?_
    have hrv : c.frame.rv ∈ c.slots := by simpa using h
    rw [hmention, mem_liveAtExit]
    simp [hrv]
  · next h =>
    refine (hadd.trans (Interference.adds_addVertex _ c.frame.rv)).congr fun t => ?_
    have hrv : c.frame.rv ∉ c.slots := by simpa using h
    rw [hmention, mem_liveAtExit]
    simp [hrv]

theorem links_interference (c : Code) (live : Liveness) :
    Interference.Links c.isolated
      (fun x y => x ≠ c.frame.fp ∧ y ≠ c.frame.fp ∧ c.Clash live x y) (c.interference live) := by
  refine (Interference.links_addFlow c.frame.fp _ c.isolated).congr fun x y => ?_
  constructor
  · rintro ⟨⟨instr, out⟩, hp, hx, hy, hd, ho⟩
    obtain ⟨i, hi⟩ := List.mem_iff_getElem?.mp hp
    obtain ⟨hinstr, hout⟩ := List.getElem?_zip_eq_some.mp hi
    rw [Array.getElem?_toList] at hout
    exact ⟨hx, hy, i, instr, hinstr, hd, by rwa [Array.getD_eq_getD_getElem?, hout]⟩
  · rintro ⟨hx, hy, i, instr, hinstr, hd, ho⟩
    rw [Array.getD_eq_getD_getElem?] at ho
    cases hout : live.liveOut[i]? with
    | none => simp [hout] at ho
    | some out =>
      rw [hout] at ho
      refine ⟨(instr, out), List.mem_iff_getElem?.mpr ⟨i, ?_⟩, hx, hy, hd, ho⟩
      exact List.getElem?_zip_eq_some.mpr ⟨hinstr, by rwa [Array.getElem?_toList]⟩

theorem mem_vertices_interference :
    t ∈ (c.interference live).vertices ↔
      t ≠ c.frame.fp ∧ c.Mentions t ∨ t ∈ c.liveAtExit := by
  rw [(c.links_interference live).vertices, c.adds_isolated.vertices]
  simp

theorem mem_neighbours_interference :
    y ∈ (c.interference live).neighbours x ↔
      x ≠ y ∧ x ∈ (c.interference live).vertices ∧ y ∈ (c.interference live).vertices ∧
        x ≠ c.frame.fp ∧ y ≠ c.frame.fp ∧ (c.Clash live x y ∨ c.Clash live y x) := by
  have hl := c.links_interference live
  rw [hl.neighbours, hl.vertices, hl.vertices, c.adds_isolated.neighbours,
    Interference.neighbours_empty]
  constructor
  · rintro (h | ⟨hne, hx, hy, ⟨hfx, hfy, hc⟩ | ⟨hfy, hfx, hc⟩⟩)
    · simp at h
    · exact ⟨hne, hx, hy, hfx, hfy, Or.inl hc⟩
    · exact ⟨hne, hx, hy, hfx, hfy, Or.inr hc⟩
  · rintro ⟨hne, hx, hy, hfx, hfy, hc⟩
    exact Or.inr ⟨hne, hx, hy, hc.imp (fun hc => ⟨hfx, hfy, hc⟩) (fun hc => ⟨hfy, hfx, hc⟩)⟩

theorem interference_simple (c : Code) (live : Liveness) : (c.interference live).Simple where
  symm x y h := by
    obtain ⟨hne, hx, hy, hfx, hfy, hc⟩ := mem_neighbours_interference.mp h
    exact mem_neighbours_interference.mpr ⟨hne.symm, hy, hx, hfy, hfx, hc.symm⟩
  ne x y h := (mem_neighbours_interference.mp h).1
  vertex x y h := (mem_neighbours_interference.mp h).2.2.1

theorem color?_interference (t : Temp) : (c.interference live).color? t = none := by
  rw [(c.links_interference live).color?, c.adds_isolated.color?]
  simp [Interference.color?]

theorem mem_vertices_of_read (h : (∃ i ∈ c.instrs, t ∈ i.uses) ∨ t ∈ c.liveAtExit)
    (hfp : t ≠ c.frame.fp) : t ∈ (c.interference live).vertices := by
  rw [mem_vertices_interference]
  rcases h with ⟨i, hi, hu⟩ | hexit
  · exact Or.inl ⟨hfp, i, hi, Or.inl hu⟩
  · exact Or.inr hexit

theorem mem_vertices_of_liveOut {i : Nat} (h : t ∈ c.liveness.liveOut.getD i ∅)
    (hfp : t ≠ c.frame.fp) : t ∈ (c.interference live).vertices :=
  mem_vertices_of_read (read_of_mem_liveOut h) hfp

/-- Adding an interference never meets an unknown temporary: what clashes are vertices. -/
theorem Clash.vertices (h : c.Clash c.liveness x y) (hx : x ≠ c.frame.fp) (hy : y ≠ c.frame.fp) :
    x ∈ (c.interference live).vertices ∧ y ∈ (c.interference live).vertices := by
  obtain ⟨i, instr, hi, hdef, hlive⟩ := h
  refine ⟨mem_vertices_interference.mpr (Or.inl ⟨hx, instr, ?_, Or.inr hdef⟩),
    mem_vertices_of_liveOut hlive hy⟩
  exact List.mem_of_getElem? hi

/-- The interference graph is exact.  Its vertices are the temporaries of the instructions other
than the frame pointer, and the return value unless it has a slot.  Two temporaries are neighbours
exactly when they are different, neither is the frame pointer, and one is written while the other is
live.  Whatever is live anywhere, other than the frame pointer, is a vertex. -/
theorem interference_exact (c : Code) :
    (∀ t, t ∈ (c.interference c.liveness).vertices ↔
      t ≠ c.frame.fp ∧ c.Mentions t ∨ t = c.frame.rv ∧ c.frame.rv ∉ c.slots) ∧
    (c.interference c.liveness).Simple ∧
    (∀ x y, (c.interference c.liveness).interferes x y ↔
      x ≠ y ∧ x ≠ c.frame.fp ∧ y ≠ c.frame.fp ∧
        (c.Clash c.liveness x y ∨ c.Clash c.liveness y x)) ∧
    ∀ i t, t ≠ c.frame.fp →
      t ∈ c.liveness.liveIn.getD i ∅ ∨ t ∈ c.liveness.liveOut.getD i ∅ →
        t ∈ (c.interference c.liveness).vertices := by
  refine ⟨fun t => ?_, c.interference_simple _, fun x y => ?_, fun i t hfp hlive => ?_⟩
  · rw [mem_vertices_interference, mem_liveAtExit]
  · rw [Interference.interferes, Std.ExtTreeSet.contains_iff_mem, mem_neighbours_interference]
    constructor
    · rintro ⟨hne, -, -, hx, hy, hclash⟩
      exact ⟨hne, hx, hy, hclash⟩
    · rintro ⟨hne, hx, hy, hclash⟩
      have hvertices : x ∈ (c.interference c.liveness).vertices ∧
          y ∈ (c.interference c.liveness).vertices := by
        rcases hclash with hxy | hyx
        · exact hxy.vertices hx hy
        · exact (hyx.vertices hy hx).symm
      exact ⟨hne, hvertices.1, hvertices.2, hx, hy, hclash⟩
  · exact mem_vertices_of_read (hlive.elim read_of_mem_liveIn read_of_mem_liveOut) hfp

/-- Code whose frame pointer is also its return value. -/
def pinned : Code where
  name := "_pinned"
  frame :=
    { label := ⟨0⟩, depth := 0, locals := 0, arguments := 0, size := 16, fp := ⟨0⟩, rv := ⟨0⟩ }
  entry := ⟨1⟩
  exit := ⟨2⟩
  instrs := [.oper (.setLow 1) [] [⟨1⟩] [], .oper (.jump "L2") [] [] [⟨2⟩]]

/-- A frame pointer that is also the return value is a vertex, and it is live while another vertex
is written, but no interference is added. -/
theorem pinned_not_exact :
    ¬ ∀ x ∈ (pinned.interference pinned.liveness).vertices,
      ∀ y ∈ (pinned.interference pinned.liveness).vertices, x ≠ y →
        ((pinned.interference pinned.liveness).interferes x y ↔
          pinned.Clash pinned.liveness x y ∨ pinned.Clash pinned.liveness y x) := by
  intro h
  have hclash : pinned.Clash pinned.liveness ⟨1⟩ ⟨0⟩ := by
    refine ⟨0, _, rfl, List.mem_singleton.mpr rfl, ?_⟩
    decide +kernel
  have hfalse : ¬ (pinned.interference pinned.liveness).interferes ⟨1⟩ ⟨0⟩ := by decide +kernel
  exact hfalse ((h ⟨1⟩ (by decide +kernel) ⟨0⟩ (by decide +kernel) (by decide)).mpr (Or.inl hclash))

end Code

end MmixBackend
