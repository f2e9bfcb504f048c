import MmixBackend.Proofs.Coloring

/-!
# Any graph is taken apart and coloured

A graph may be put together by adding vertices and interferences in any order.  Whatever comes out
is simple, so the results on colouring hold of it, for every number of colours and every set of
temporaries from earlier spills.

* The loop that sets temporaries aside ends when none is left.  It sets each vertex aside once, and
  no count of neighbours falls below zero.
* Every vertex gets a colour that its neighbours do not have, or is marked as a spill and handed
  back.  What is handed back was set aside as a potential spill.
* There is no potential spill exactly when every part of the graph has a vertex with fewer
  neighbours in this part than there are colours.  Then every vertex gets a colour.
-/

namespace MmixBackend.Interference

/-! ## Graphs put together -/

/-- A change to a graph. -/
inductive Edit where
  | vertex (t : Temp)
  | edge (a b : Temp)

def edit (g : Interference) : Edit → Interference
  | .vertex t => g.addVertex t
  | .edge a b => g.addEdge a b

/-- The graph that changes lead to. -/
def build (es : List Edit) : Interference := es.foldl edit {}

/-- A simple graph in which nothing has a colour yet. -/
structure Fresh (g : Interference) : Prop where
  simple : g.Simple
  color? : ∀ t, g.color? t = none

theorem fresh_empty : Fresh {} where
  simple := by
    constructor <;> intro x y h <;> simp [neighbours_empty] at h
  color? t := by simp [Interference.color?]

theorem Fresh.edit {g : Interference} (h : g.Fresh) (e : Edit) : (g.edit e).Fresh := by
  cases e with
  | vertex t =>
    have hadd := adds_addVertex g t
    refine ⟨⟨fun x y hy => ?_, fun x y hy => ?_, fun x y hy => ?_⟩, fun u => ?_⟩
    · show x ∈ (g.addVertex t).neighbours y
      rw [hadd.neighbours]
      exact h.simple.symm (hadd.neighbours x ▸ hy)
    · exact h.simple.ne (hadd.neighbours x ▸ hy)
    · exact (hadd.vertices y).mpr (Or.inl (h.simple.vertex (hadd.neighbours x ▸ hy)))
    · exact (hadd.color? u).trans (h.color? u)
  | edge a b =>
    have hlink := links_addEdge g a b
    refine ⟨⟨fun x y hy => ?_, fun x y hy => ?_, fun x y hy => ?_⟩, fun u => ?_⟩
    · show x ∈ (g.addEdge a b).neighbours y
      rw [hlink.neighbours]
      rcases (hlink.neighbours x y).mp hy with hold | ⟨hne, hx, hy, hpair⟩
      · exact Or.inl (h.simple.symm hold)
      · exact Or.inr ⟨hne.symm, hy, hx, hpair.symm⟩
    · rcases (hlink.neighbours x y).mp hy with hold | ⟨hne, -⟩
      · exact h.simple.ne hold
      · exact hne
    · refine (hlink.vertices y).mpr ?_
      rcases (hlink.neighbours x y).mp hy with hold | ⟨-, -, hy, -⟩
      · exact h.simple.vertex hold
      · exact hy
    · exact (hlink.color? u).trans (h.color? u)

theorem build_fresh (es : List Edit) : (build es).Fresh := by
  have hfold : ∀ (es : List Edit) {g : Interference}, g.Fresh → (es.foldl edit g).Fresh := by
    intro es
    induction es with
    | nil => exact fun h => h
    | cons e es ih => exact fun h => ih (h.edit e)
  exact hfold es fresh_empty

/-! ## The loop -/

/-- One neighbour less, unless there is none to take away. -/
def lower? (degrees : Table Temp Nat) (t : Temp) : Option (Table Temp Nat) :=
  if degrees[t]? = some 0 then none else some (degrees.modify t (· - 1))

/-- The degrees without a temporary, if no count falls below zero. -/
def remove? (g : Interference) (t : Temp) (degrees : Table Temp Nat) : Option (Table Temp Nat) :=
  (g.neighbours t).toList.foldlM lower? (degrees.erase t)

/-- The loop from some degrees on: while there are temporaries left, the next one is set aside. -/
inductive Empties (g : Interference) (k : Nat) (repair : TempSet) :
    Table Temp Nat → List Removal → List Removal → Prop
  | done {degrees : Table Temp Nat} {stack : List Removal} :
      degrees.isEmpty → Empties g k repair degrees stack stack
  | step {degrees degrees' : Table Temp Nat} {stack rs : List Removal} {r : Removal} :
      next k repair degrees = some r → g.remove? r.temp degrees = some degrees' →
      Empties g k repair degrees' (r :: stack) rs → Empties g k repair degrees stack rs

section Loop

variable {g : Interference} {k : Nat} {repair : TempSet} {degrees : Table Temp Nat} {t : Temp}

/-- Different temporaries with positive counts can be lowered one after another. -/
theorem foldlM_lower? (ts : List Temp) (hnd : ts.Nodup) :
    ∀ {degrees : Table Temp Nat}, (∀ u ∈ ts, degrees[u]? ≠ some 0) →
      ts.foldlM lower? degrees = some (ts.foldl (fun ds n => ds.modify n (· - 1)) degrees) := by
  induction ts with
  | nil => exact fun _ => rfl
  | cons t ts ih =>
    intro degrees hpos
    obtain ⟨ht, hnd⟩ := List.nodup_cons.mp hnd
    obtain ⟨hpos, hrest⟩ := List.forall_mem_cons.mp hpos
    rw [List.foldlM_cons, lower?, if_neg hpos]
    refine ih hnd fun u hu => ?_
    have hne : t ≠ u := fun h => ht (h ▸ hu)
    rw [Std.ExtTreeMap.getElem?_modify, if_neg (by simpa using hne)]
    exact hrest u hu

/-- A temporary that is left counts among the neighbours of each of its neighbours. -/
theorem Counts.pos (hg : g.Simple) (h : g.Counts degrees) (ht : t ∈ degrees) {u : Temp}
    (hu : u ∈ g.neighbours t) : degrees[u]? ≠ some 0 := by
  intro hzero
  have hcount : 0 = g.degreeIn degrees.contains u := h u 0 hzero
  have hmem : t ∈ (g.neighbours u).toList.filter degrees.contains :=
    List.mem_filter.mpr ⟨Std.ExtTreeSet.mem_toList.mpr (hg.symm hu),
      Std.ExtTreeMap.contains_iff_mem.mpr ht⟩
  rw [degreeIn, eq_comm, List.length_eq_zero_iff] at hcount
  rw [hcount] at hmem
  cases hmem

/-- No count falls below zero. -/
theorem remove?_eq (hg : g.Simple) (h : g.Counts degrees) (ht : t ∈ degrees) :
    g.remove? t degrees = some (g.remove t degrees) := by
  refine foldlM_lower? _ (TempSet.toList_nodup _) fun u hu => ?_
  have hmem := Std.ExtTreeSet.mem_toList.mp hu
  rw [Std.ExtTreeMap.getElem?_erase, if_neg (by simpa using hg.ne hmem)]
  exact h.pos hg ht hmem

theorem takeApart_empties (hg : g.Simple) {count : Nat} :
    ∀ {degrees : Table Temp Nat} {stack : List Removal}, degrees.size = count → g.Counts degrees →
      Empties g k repair degrees stack (takeApart g k repair count degrees stack) := by
  induction count with
  | zero =>
    intro degrees stack hsize _
    exact .done (by simpa using Std.ExtTreeMap.eq_empty_iff_size_eq_zero.mpr hsize)
  | succ count ih =>
    intro degrees stack hsize hc
    cases hnext : next k repair degrees with
    | none =>
      rw [next_none hnext] at hsize
      cases hsize
    | some r =>
      have hr := (next_some hnext).1
      rw [takeApart, hnext]
      refine .step hnext (remove?_eq hg hc hr) (ih ?_ (hc.remove hg hr))
      rw [size_remove hr, hsize]
      rfl

/-- The loop ends, with the order in which to colour. -/
theorem simplify_empties (hg : g.Simple) :
    Empties g k repair g.degrees [] (g.simplify k repair) :=
  takeApart_empties hg Std.ExtTreeMap.size_map (counts_degrees hg)

/-- Every vertex is set aside once. -/
theorem simplify_perm (hg : g.Simple) : (temps (g.simplify k repair)).Perm g.vertices.keys := by
  refine (List.perm_ext_iff_of_nodup (simplify_ordered hg).nodup ?_).mpr fun t => ?_
  · exact Std.ExtTreeMap.nodup_keys
  · rw [mem_simplify hg, Std.ExtTreeMap.mem_keys]

end Loop

/-! ## What is recorded -/

section Record

variable {g : Interference} {k : Nat} {repair : TempSet} {r : Removal} {rs : List Removal}
  {t : Temp}

theorem paint_of_notMem (rs : List Removal) :
    ∀ {g : Interference}, t ∉ temps rs → (paint k g rs).1.vertices[t]? = g.vertices[t]? := by
  induction rs with
  | nil => exact fun _ => rfl
  | cons r rs ih =>
    intro g ht
    obtain ⟨hne, ht⟩ := not_or.mp (mt List.mem_cons.mpr ht)
    refine (ih ht).trans ?_
    rw [setColor, Std.ExtTreeMap.getElem?_modify, if_neg (by simpa using Ne.symm hne)]

/-- What is recorded for a temporary: why it was set aside, its colour, and that it is a spill when
it has none.  Those without a colour are handed back. -/
theorem paint_records (rs : List Removal) :
    ∀ {g : Interference}, (temps rs).Nodup → r ∈ rs → r.temp ∈ g.vertices →
      ∃ v, (paint k g rs).1.vertices[r.temp]? = some v ∧ v.potentialSpill = r.potentialSpill ∧
        v.spill = v.color.isNone ∧ (r.temp ∈ (paint k g rs).2 ↔ v.color = none) := by
  induction rs with
  | nil =>
    intro g _ hr
    cases hr
  | cons r' rs ih =>
    intro g hnd hr hv
    obtain ⟨hnew, hnd⟩ := List.nodup_cons.mp hnd
    have hspills : r.temp ∈ (paint k g (r' :: rs)).2 ↔
        (g.freeColor k r'.temp = none ∧ r.temp = r'.temp) ∨
          r.temp ∈ (paint k (g.setColor r' (g.freeColor k r'.temp)) rs).2 := by
      rw [paint]
      cases g.freeColor k r'.temp <;> simp
    rw [hspills]
    rcases List.mem_cons.mp hr with rfl | hr
    · -- it is painted now and not again
      obtain ⟨v, hget⟩ : ∃ v, g.vertices[r.temp]? = some v :=
        ⟨_, Std.ExtTreeMap.getElem?_eq_some_getElem hv⟩
      have hlater : r.temp ∉ (paint k (g.setColor r (g.freeColor k r.temp)) rs).2 :=
        fun hmem => hnew ((paint_sublist k rs _).subset hmem)
      let v' : Vertex :=
        { v with
          color := g.freeColor k r.temp
          potentialSpill := r.potentialSpill
          spill := (g.freeColor k r.temp).isNone }
      refine ⟨v', (paint_of_notMem rs hnew).trans ?_, rfl, rfl, by simp [v', hlater]⟩
      rw [setColor, Std.ExtTreeMap.getElem?_modify, if_pos (by simp), hget]
      rfl
    · have hne : r.temp ≠ r'.temp := by
        intro h
        apply hnew
        show r'.temp ∈ temps rs
        rw [← h]
        exact List.mem_map_of_mem hr
      have hvertex := ((recolors_setColor g r' (g.freeColor k r'.temp)).vertices r.temp).mpr hv
      obtain ⟨v, hget, hflag, hspill, hback⟩ := ih hnd hr hvertex
      refine ⟨v, hget, hflag, hspill, ?_⟩
      rw [← hback]
      exact or_iff_right fun h => hne h.2

end Record

/-! ## Sparse graphs -/

/-- Every part of the graph has a vertex with fewer than `k` neighbours in this part. -/
def Sparse (g : Interference) (k : Nat) : Prop :=
  ∀ S : TempSet, S ≠ ∅ → (∀ t ∈ S, t ∈ g.vertices) → ∃ t ∈ S, g.degreeIn S.contains t < k

section Sparse

variable {g : Interference} {k : Nat} {repair : TempSet} {rs : List Removal}

theorem degreeIn_mono {among among' : Temp → Bool} {t : Temp}
    (h : ∀ u ∈ g.neighbours t, among u → among' u) : g.degreeIn among t ≤ g.degreeIn among' t := by
  rw [degreeIn, degreeIn, ← List.countP_eq_length_filter, ← List.countP_eq_length_filter]
  exact List.countP_mono_left fun u hu => h u (Std.ExtTreeSet.mem_toList.mp hu)

/-- Without potential spills every part has such a vertex: the one that is set aside first. -/
theorem Ordered.sparse (hg : g.Simple) (h : Ordered g k repair rs)
    (hall : ∀ t, t ∈ g.vertices → t ∈ temps rs) (hlow : ∀ r ∈ rs, r.potentialSpill = false) :
    g.Sparse k := by
  intro S hne hS
  obtain ⟨t, ht⟩ : ∃ t, t ∈ S := by
    by_contra hnone
    exact hne (Std.ExtTreeSet.eq_empty_iff_forall_not_mem.mpr fun t ht => hnone ⟨t, ht⟩)
  -- the vertices of the part that were set aside before it are those after it in the order
  obtain ⟨before, r, after, rfl, hr, hafter⟩ : ∃ before r after, rs = before ++ r :: after ∧
      r.temp ∈ S ∧ ∀ r' ∈ after, r'.temp ∉ S := by
    obtain ⟨r, hr, rfl⟩ := List.mem_map.mp (hall t (hS t ht))
    have hsome : (rs.reverse.find? fun r => decide (r.temp ∈ S)).isSome :=
      List.find?_isSome.mpr ⟨r, List.mem_reverse.mpr hr, by simpa using ht⟩
    obtain ⟨r', hfind⟩ := Option.isSome_iff_exists.mp hsome
    obtain ⟨hr', as, bs, heq, has⟩ := List.find?_eq_some_iff_append.mp hfind
    refine ⟨bs.reverse, r', as.reverse, ?_, by simpa using hr', fun r hr => ?_⟩
    · rw [← List.reverse_reverse rs, heq]
      simp
    · simpa using has r (List.mem_reverse.mp hr)
  refine ⟨r.temp, hr, Nat.lt_of_le_of_lt (degreeIn_mono fun u hu hmem => ?_)
    (h.low before r after rfl (hlow r (by simp)))⟩
  have hu' : u ∈ S := by simpa using hmem
  have hmem' := hall u (hS u hu')
  rw [List.contains_iff_mem]
  rw [temps, List.map_append, List.map_cons, List.mem_append, List.mem_cons] at hmem'
  rcases hmem' with hbefore | rfl | hlater
  · exact hbefore
  · exact absurd rfl (hg.ne hu)
  · obtain ⟨r', hr', rfl⟩ := List.mem_map.mp hlater
    exact absurd hu' (hafter r' hr')

/-- A potential spill and what is set aside after it form a part without such a vertex. -/
theorem Ordered.low_of_sparse (h : Ordered g k repair rs)
    (hall : ∀ t, t ∈ temps rs → t ∈ g.vertices) (hsparse : g.Sparse k) :
    ∀ r ∈ rs, r.potentialSpill = false := by
  intro r hr
  by_contra hflag
  obtain ⟨before, after, rfl⟩ := List.append_of_mem hr
  have hhigh := h.high before r after rfl (by simpa using hflag)
  let S : TempSet := Std.ExtTreeSet.ofList (r.temp :: temps before)
  have hmem : ∀ t, t ∈ S ↔ t ∈ r.temp :: temps before := by
    intro t
    rw [Std.ExtTreeSet.mem_ofList, List.contains_iff_mem]
  have hne : S ≠ ∅ := by
    intro hempty
    have hr' : r.temp ∈ S := (hmem _).mpr List.mem_cons_self
    rw [hempty] at hr'
    simp at hr'
  have hvertices : ∀ t ∈ S, t ∈ g.vertices := by
    intro t ht
    refine hall t ?_
    rw [temps, List.map_append, List.map_cons]
    rcases List.mem_cons.mp ((hmem t).mp ht) with rfl | ht
    · simp
    · exact List.mem_append_left _ ht
  obtain ⟨t, ht, hlt⟩ := hsparse S hne hvertices
  have hle := (hhigh t ((hmem t).mp ht)).1
  have hsame : g.degreeIn S.contains t = g.degreeIn (r.temp :: temps before).contains t := by
    refine degreeIn_congr (fun u => ?_) t
    rw [Bool.eq_iff_iff, Std.ExtTreeSet.contains_iff_mem, hmem, List.contains_iff_mem]
  omega

end Sparse

/-- Whatever vertices and interferences a graph was put together from, it is taken apart and
coloured properly.  The loop that sets temporaries aside ends and sets each vertex aside once.  Each
vertex then has a colour below `k` that no neighbour has, or is a spill and handed back, as only
potential spills are.  There are none exactly in a sparse graph, which is coloured completely. -/
theorem build_colored (es : List Edit) (k : Nat) (repair : TempSet) :
    let g := build es
    let rs := g.simplify k repair
    let painted := (paint k g rs).1
    let spills := (paint k g rs).2
    Empties g k repair g.degrees [] rs ∧ (temps rs).Perm g.vertices.keys ∧
    Recolors g painted ∧
    (∀ t ∈ g.vertices, ∃ v, painted.vertices[t]? = some v ∧ ⟨t, v.potentialSpill⟩ ∈ rs ∧
      ((∃ c < k, v.color = some c ∧ v.spill = false ∧ t ∉ spills ∧
          ∀ u ∈ g.neighbours t, painted.color? u ≠ some c) ∨
        v.color = none ∧ v.spill = true ∧ t ∈ spills)) ∧
    (∀ t ∈ spills, ⟨t, true⟩ ∈ rs) ∧
    ((∀ r ∈ rs, r.potentialSpill = false) ↔ g.Sparse k) ∧
    (g.Sparse k → spills = [] ∧ ∀ t ∈ g.vertices, (painted.color? t).isSome) := by
  intro g rs painted spills
  obtain ⟨hg, hcolor⟩ := build_fresh es
  have hord : Ordered g k repair rs := simplify_ordered hg
  have hall : ∀ t, t ∈ temps rs ↔ t ∈ g.vertices := fun t => mem_simplify hg
  have hproper : painted.Proper k :=
    paint_proper rs hg ⟨fun t c h => (nomatch (hcolor t).symm.trans h),
      fun x y c _ h => (nomatch (hcolor x).symm.trans h)⟩
  have hrecolors : Recolors g painted := paint_recolors k rs g
  have hpotential : ∀ t ∈ spills, ⟨t, true⟩ ∈ rs := by
    intro t ht
    have hstart : ∀ t, (g.color? t).isSome → t ∈ temps [] := by
      intro t h
      rw [hcolor t] at h
      cases h
    obtain ⟨r, hr, rfl, hflag⟩ :=
      paint_potential hord (List.nil_append rs).symm (Recolors.refl g) hstart t ht
    rw [← hflag]
    exact hr
  have hsparse : (∀ r ∈ rs, r.potentialSpill = false) ↔ g.Sparse k :=
    ⟨hord.sparse hg fun t => (hall t).mpr, hord.low_of_sparse fun t => (hall t).mp⟩
  have hnone : g.Sparse k → ∀ t, t ∉ spills := by
    intro h t ht
    cases hsparse.mpr h _ (hpotential t ht)
  refine ⟨simplify_empties hg, simplify_perm hg, hrecolors, fun t ht => ?_, hpotential, hsparse,
    fun h => ⟨List.eq_nil_iff_forall_not_mem.mpr (hnone h), fun t ht => ?_⟩⟩
  · obtain ⟨r, hr, rfl⟩ := List.mem_map.mp ((hall t).mpr ht)
    obtain ⟨v, hget, hflag, hspill, hback⟩ := paint_records rs (k := k) hord.nodup hr ht
    have hcolor? : painted.color? r.temp = v.color := by
      show painted.vertices[r.temp]? >>= (·.color) = v.color
      rw [hget]
      rfl
    refine ⟨v, hget, hflag ▸ hr, ?_⟩
    cases hc : v.color with
    | none => exact Or.inr ⟨rfl, by rw [hspill, hc]; rfl, hback.mpr hc⟩
    | some c =>
      rw [hc] at hcolor?
      refine Or.inl ⟨c, hproper.below hcolor?, rfl, by rw [hspill, hc]; rfl, ?_, fun u hu => ?_⟩
      · intro hmem
        rw [hback.mp hmem] at hc
        cases hc
      · exact hproper.apart ((hrecolors.neighbours r.temp).symm ▸ hu) hcolor?
  · exact (paint_complete rs (Or.inr ⟨ht, (hall t).mpr ht⟩)).resolve_right (hnone h t)

/-- Four temporaries, each of which interferes with the two next to it. -/
def square : List Edit :=
  [.vertex ⟨0⟩, .vertex ⟨1⟩, .vertex ⟨2⟩, .vertex ⟨3⟩, .edge ⟨0⟩ ⟨1⟩, .edge ⟨1⟩ ⟨2⟩, .edge ⟨2⟩ ⟨3⟩,
   .edge ⟨3⟩ ⟨0⟩]

/-- Three colours are enough for it. -/
theorem build_colored_square : (build square).Sparse 3 ∧
    (paint 3 (build square) ((build square).simplify 3 ∅)).2 = [] := by
  obtain ⟨-, -, -, -, -, hsparse, hall⟩ := build_colored square 3 ∅
  have h : (build square).Sparse 3 := hsparse.mp (by decide +kernel)
  exact ⟨h, (hall h).1⟩

end MmixBackend.Interference
