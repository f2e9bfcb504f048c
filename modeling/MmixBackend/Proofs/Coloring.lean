import MmixBackend.Proofs.Interference
import MmixBackend.Target.Allocation

/-!
# Colouring

Taking a graph apart sets every vertex aside once.  A vertex that is set aside with fewer
neighbours left than there are colours gets a colour: when its turn comes only those neighbours
have one.  So what is left without a colour was set aside as a potential spill, and that happens
to a temporary from an earlier spill only if all that is left is of this kind and has too many
neighbours.
-/

namespace MmixBackend.Interference

/-! ## Candidates -/

section Candidates

variable {repair : TempSet} {c d : Temp × Nat} {cs : List (Temp × Nat)}

abbrev better (repair : TempSet) (best d : Temp × Nat) : Temp × Nat :=
  if prefers repair best d then d else best

theorem better_eq (repair : TempSet) (best d : Temp × Nat) :
    better repair best d = best ∨ better repair best d = d := by
  unfold better
  split
  · exact Or.inr rfl
  · exact Or.inl rfl

/-- The better one stems from an earlier spill only if both do. -/
theorem better_mem (h : (better repair c d).1 ∈ repair) : c.1 ∈ repair ∧ d.1 ∈ repair := by
  unfold better prefers at h
  rw [← Std.ExtTreeSet.contains_iff_mem] at h ⊢
  rw [← Std.ExtTreeSet.contains_iff_mem]
  cases hc : repair.contains c.1 <;> cases hd : repair.contains d.1 <;>
    simp only [hc, hd] at h <;> grind

theorem mem_of_worst (h : worst repair cs = some c) : c ∈ cs := by
  have hfold : ∀ (cs : List (Temp × Nat)) (best : Temp × Nat),
      cs.foldl (better repair) best ∈ best :: cs := by
    intro cs
    induction cs with
    | nil => simp
    | cons d cs ih =>
      intro best
      have hmem := ih (better repair best d)
      rcases better_eq repair best d with heq | heq <;> rw [heq] at hmem <;>
        rw [List.foldl_cons, heq] <;> simp at hmem ⊢ <;> grind
  cases cs with
  | nil => cases h
  | cons b cs =>
    cases h
    exact hfold cs b

theorem repair_of_worst (h : worst repair cs = some c) (hc : c.1 ∈ repair) :
    ∀ d ∈ cs, d.1 ∈ repair := by
  have hfold : ∀ (cs : List (Temp × Nat)) (best : Temp × Nat),
      (cs.foldl (better repair) best).1 ∈ repair → ∀ d ∈ best :: cs, d.1 ∈ repair := by
    intro cs
    induction cs with
    | nil => simp
    | cons d cs ih =>
      intro best hb
      have hall := ih _ hb
      obtain ⟨hbest, hd⟩ := better_mem (hall _ List.mem_cons_self)
      simp only [List.mem_cons, forall_eq_or_imp] at hall ⊢
      exact ⟨hbest, hd, hall.2⟩
  cases cs with
  | nil => cases h
  | cons b cs =>
    cases h
    exact hfold cs b hc

end Candidates

/-! ## Degrees -/

/-- The number of neighbours of a temporary among given ones. -/
def degreeIn (g : Interference) (among : Temp → Bool) (t : Temp) : Nat :=
  ((g.neighbours t).toList.filter among).length

/-- Each number is that of the neighbours which are left. -/
def Counts (g : Interference) (degrees : Table Temp Nat) : Prop :=
  ∀ t n, degrees[t]? = some n → n = g.degreeIn degrees.contains t

section Degrees

variable {g : Interference} {degrees : Table Temp Nat} {t u : Temp}

theorem getElem?_degrees (g : Interference) (t : Temp) :
    g.degrees[t]? = g.vertices[t]?.map (·.neighbours.size) :=
  Std.ExtTreeMap.getElem?_map

theorem mem_degrees : t ∈ g.degrees ↔ t ∈ g.vertices := by
  rw [← Std.ExtTreeMap.isSome_getElem?_iff_mem, ← Std.ExtTreeMap.isSome_getElem?_iff_mem,
    getElem?_degrees, Option.isSome_map]

theorem counts_degrees (hg : g.Simple) : g.Counts g.degrees := by
  intro t n h
  rw [getElem?_degrees] at h
  obtain ⟨v, hv, rfl⟩ := Option.map_eq_some_iff.mp h
  have hnb : g.neighbours t = v.neighbours := by simp only [neighbours, hv]
  rw [degreeIn, List.filter_eq_self.mpr, hnb, Std.ExtTreeSet.length_toList]
  intro u hu
  rw [Std.ExtTreeMap.contains_iff_mem, mem_degrees]
  exact hg.vertex (Std.ExtTreeSet.mem_toList.mp hu)

theorem getElem?_foldl_modify (ts : List Temp) (hnd : ts.Nodup) (f : Nat → Nat)
    (degrees : Table Temp Nat) :
    (ts.foldl (fun ds n => ds.modify n f) degrees)[u]? =
      if u ∈ ts then degrees[u]?.map f else degrees[u]? := by
  induction ts generalizing degrees with
  | nil => simp
  | cons t ts ih =>
    obtain ⟨ht, hnd⟩ := List.nodup_cons.mp hnd
    simp only [List.foldl_cons, ih hnd, Std.ExtTreeMap.getElem?_modify,
      Std.LawfulEqOrd.compare_eq_iff_eq]
    by_cases hu : t = u
    · subst hu
      simp [ht]
    · simp [hu, Ne.symm hu]

theorem getElem?_remove (hg : g.Simple) :
    (g.remove t degrees)[u]? =
      if u = t then none
      else if u ∈ g.neighbours t then degrees[u]?.map (· - 1) else degrees[u]? := by
  rw [remove, getElem?_foldl_modify _ (TempSet.toList_nodup _)]
  simp only [Std.ExtTreeMap.getElem?_erase, Std.LawfulEqOrd.compare_eq_iff_eq,
    Std.ExtTreeSet.mem_toList]
  by_cases hu : u = t
  · subst hu
    have hself : u ∉ g.neighbours u := fun h => hg.ne h rfl
    simp [hself]
  · rw [if_neg hu, if_neg (Ne.symm hu)]

theorem mem_remove (hg : g.Simple) : u ∈ g.remove t degrees ↔ u ≠ t ∧ u ∈ degrees := by
  rw [← Std.ExtTreeMap.isSome_getElem?_iff_mem, ← Std.ExtTreeMap.isSome_getElem?_iff_mem,
    getElem?_remove hg]
  by_cases hu : u = t
  · simp [hu]
  · rw [if_neg hu]
    split <;> simp [hu]

theorem size_remove (ht : t ∈ degrees) : (g.remove t degrees).size = degrees.size - 1 := by
  have hfold : ∀ (ts : List Temp) (ds : Table Temp Nat),
      (ts.foldl (fun ds n => ds.modify n (· - 1)) ds).size = ds.size := by
    intro ts
    induction ts with
    | nil => exact fun _ => rfl
    | cons t ts ih => exact fun ds => (ih _).trans Std.ExtTreeMap.size_modify
  rw [remove, hfold, Std.ExtTreeMap.size_erase, if_pos (by simpa using ht)]

theorem length_filter_ne {l : List Temp} (hnd : l.Nodup) {among : Temp → Bool} (ht : t ∈ l)
    (ha : among t = true) :
    (l.filter fun u => u ≠ t && among u).length + 1 = (l.filter among).length := by
  induction l with
  | nil => cases ht
  | cons u l ih =>
    obtain ⟨hu, hnd⟩ := List.nodup_cons.mp hnd
    rcases List.mem_cons.mp ht with rfl | ht
    · rw [List.filter_cons_of_neg (by simp), List.filter_cons_of_pos ha, List.length_cons]
      refine congrArg (fun l : List Temp => l.length + 1) (List.filter_congr fun v hv => ?_)
      have hne : v ≠ t := by
        rintro rfl
        exact hu hv
      simp [hne]
    · have hne : u ≠ t := by
        rintro rfl
        exact hu ht
      have hlen := ih hnd ht
      by_cases hau : among u = true
      · rw [List.filter_cons_of_pos (by simp [hne, hau]), List.filter_cons_of_pos hau,
          List.length_cons, List.length_cons, hlen]
      · rw [List.filter_cons_of_neg (by simp [hau]), List.filter_cons_of_neg hau, hlen]

theorem contains_remove (hg : g.Simple) :
    (g.remove t degrees).contains u = (u ≠ t && degrees.contains u) := by
  rw [Bool.eq_iff_iff, Std.ExtTreeMap.contains_iff_mem, mem_remove hg]
  simp

theorem Counts.remove (hg : g.Simple) (h : g.Counts degrees) (ht : t ∈ degrees) :
    g.Counts (g.remove t degrees) := by
  intro u n hn
  rw [getElem?_remove hg] at hn
  split at hn
  · cases hn
  · next hu =>
    have hcount : g.degreeIn (g.remove t degrees).contains u =
        ((g.neighbours u).toList.filter fun v => v ≠ t && degrees.contains v).length := by
      rw [degreeIn]
      exact congrArg List.length (List.filter_congr fun v _ => contains_remove hg)
    rw [hcount]
    split at hn
    · next hnb =>
      obtain ⟨m, hm, rfl⟩ := Option.map_eq_some_iff.mp hn
      have hmem : t ∈ (g.neighbours u).toList := Std.ExtTreeSet.mem_toList.mpr (hg.symm hnb)
      have hlen := length_filter_ne (TempSet.toList_nodup _) hmem
        (Std.ExtTreeMap.contains_iff_mem.mpr ht)
      have hm' := h u m hm
      rw [degreeIn] at hm'
      omega
    · next hnb =>
      rw [h u n hn, degreeIn]
      refine congrArg List.length (List.filter_congr fun v hv => ?_)
      have hne : v ≠ t := by
        rintro rfl
        exact hnb (hg.symm (Std.ExtTreeSet.mem_toList.mp hv))
      simp [hne]

end Degrees

/-! ## Taking a graph apart -/

/-- The temporaries of removals. -/
abbrev temps (rs : List Removal) : List Temp := rs.map (·.temp)

/-- The order in which a graph may be coloured: a temporary that is no potential spill has fewer
than `k` neighbours before it; where one is, it and those before it have at least `k` neighbours
among themselves, and if it stems from an earlier spill so do they. -/
structure Ordered (g : Interference) (k : Nat) (repair : TempSet) (rs : List Removal) : Prop where
  nodup : (temps rs).Nodup
  low : ∀ before r after, rs = before ++ r :: after → r.potentialSpill = false →
    g.degreeIn (temps before).contains r.temp < k
  high : ∀ before r after, rs = before ++ r :: after → r.potentialSpill = true →
    ∀ u ∈ r.temp :: temps before,
      k ≤ g.degreeIn (r.temp :: temps before).contains u ∧ (r.temp ∈ repair → u ∈ repair)

section TakeApart

variable {g : Interference} {k : Nat} {repair : TempSet} {degrees : Table Temp Nat}
  {r : Removal} {rs : List Removal}

theorem next_some (h : next k repair degrees = some r) :
    r.temp ∈ degrees ∧
      (r.potentialSpill = false → ∃ n, degrees[r.temp]? = some n ∧ n < k) ∧
      (r.potentialSpill = true → ∀ u n, degrees[u]? = some n →
        k ≤ n ∧ (r.temp ∈ repair → u ∈ repair)) := by
  rw [next] at h
  simp only at h
  split at h
  · next t n hfind =>
    cases h
    have hget : degrees[t]? = some n :=
      Std.ExtTreeMap.mem_toList_iff_getElem?_eq_some.mp (List.mem_of_find?_eq_some hfind)
    refine ⟨Std.ExtTreeMap.mem_iff_isSome_getElem?.mpr (by rw [hget]; rfl), fun _ => ?_,
      fun hp => (by cases hp)⟩
    exact ⟨n, hget, by simpa using List.find?_some hfind⟩
  · next hnone =>
    obtain ⟨⟨t, n⟩, hw, rfl⟩ := Option.map_eq_some_iff.mp h
    have hget : degrees[t]? = some n :=
      Std.ExtTreeMap.mem_toList_iff_getElem?_eq_some.mp (mem_of_worst hw)
    refine ⟨Std.ExtTreeMap.mem_iff_isSome_getElem?.mpr (by rw [hget]; rfl),
      fun hp => (by cases hp), fun _ u m hu => ?_⟩
    have hmem := Std.ExtTreeMap.mem_toList_iff_getElem?_eq_some.mpr hu
    refine ⟨?_, fun ht => repair_of_worst hw ht _ hmem⟩
    simpa using List.find?_eq_none.mp hnone _ hmem

theorem next_none (h : next k repair degrees = none) : degrees.size = 0 := by
  rw [next] at h
  simp only at h
  split at h
  · cases h
  · rw [Option.map_eq_none_iff] at h
    rw [← Std.ExtTreeMap.length_toList]
    cases hl : degrees.toList with
    | nil => rfl
    | cons c cs =>
      rw [hl] at h
      cases h

theorem degreeIn_congr {among among' : Temp → Bool} (h : ∀ u, among u = among' u) (t : Temp) :
    g.degreeIn among t = g.degreeIn among' t := by
  rw [degreeIn, degreeIn, funext h]

theorem ordered_nil : Ordered g k repair [] := by
  refine ⟨List.nodup_nil, ?_, ?_⟩ <;>
    intro before r after h <;> simp at h

theorem Ordered.concat (h : Ordered g k repair rs) (hnew : r.temp ∉ temps rs)
    (hlow : r.potentialSpill = false → g.degreeIn (temps rs).contains r.temp < k)
    (hhigh : r.potentialSpill = true → ∀ u ∈ r.temp :: temps rs,
      k ≤ g.degreeIn (r.temp :: temps rs).contains u ∧ (r.temp ∈ repair → u ∈ repair)) :
    Ordered g k repair (rs ++ [r]) := by
  have hsplit : ∀ {before r' after}, rs ++ [r] = before ++ r' :: after →
      (before = rs ∧ r' = r) ∨ ∃ after', rs = before ++ r' :: after' := by
    intro before r' after heq
    rcases List.eq_nil_or_concat after with rfl | ⟨after', x, rfl⟩
    · obtain ⟨rfl, hr⟩ := List.append_inj' heq rfl
      cases hr
      exact Or.inl ⟨rfl, rfl⟩
    · rw [List.concat_eq_append, ← List.cons_append, ← List.append_assoc] at heq
      exact Or.inr ⟨after', (List.append_inj' heq rfl).1⟩
  refine ⟨?_, ?_, ?_⟩
  · rw [temps, List.map_append, List.nodup_append]
    refine ⟨h.nodup, by simp, fun t ht u hu => ?_⟩
    rintro rfl
    rw [List.map_singleton, List.mem_singleton] at hu
    exact hnew (hu ▸ ht)
  · intro before r' after heq hp
    rcases hsplit heq with ⟨rfl, rfl⟩ | ⟨after', hrs⟩
    · exact hlow hp
    · exact h.low before r' after' hrs hp
  · intro before r' after heq hp
    rcases hsplit heq with ⟨rfl, rfl⟩ | ⟨after', hrs⟩
    · exact hhigh hp
    · exact h.high before r' after' hrs hp

/-- Taking apart sets every temporary aside, in an order in which they may be coloured. -/
theorem takeApart_eq (hg : g.Simple) {count : Nat} :
    ∀ {degrees : Table Temp Nat} {stack : List Removal}, degrees.size = count →
      g.Counts degrees →
      ∃ rs, takeApart g k repair count degrees stack = rs ++ stack ∧ Ordered g k repair rs ∧
        ∀ t, t ∈ temps rs ↔ t ∈ degrees := by
  induction count with
  | zero =>
    intro degrees stack hsize _
    have hempty : degrees = ∅ := Std.ExtTreeMap.eq_empty_iff_size_eq_zero.mpr hsize
    exact ⟨[], rfl, ordered_nil, fun t => by simp [hempty]⟩
  | succ count ih =>
    intro degrees stack hsize hc
    cases hnext : next k repair degrees with
    | none =>
      rw [next_none hnext] at hsize
      cases hsize
    | some r =>
      obtain ⟨hr, hlow, hhigh⟩ := next_some hnext
      have hsize' : (g.remove r.temp degrees).size = count := by
        rw [size_remove hr, hsize]
        rfl
      obtain ⟨rs, hrs, hord, hmem⟩ := @ih _ (r :: stack) hsize' (hc.remove hg hr)
      refine ⟨rs ++ [r], ?_, ?_, fun t => ?_⟩
      · rw [takeApart, hnext]
        simp only [hrs, List.append_assoc, List.singleton_append]
      · -- those set aside later are the ones that are left without `r`
        have hleft : ∀ u, (temps rs).contains u = (g.remove r.temp degrees).contains u := by
          intro u
          rw [Bool.eq_iff_iff, List.contains_iff_mem, Std.ExtTreeMap.contains_iff_mem, hmem]
        have hall : ∀ u, (r.temp :: temps rs).contains u = degrees.contains u := by
          intro u
          rw [List.contains_cons, hleft, contains_remove hg]
          by_cases hu : u = r.temp
          · simpa [hu] using hr
          · simp [hu]
        refine hord.concat (fun h => ((mem_remove hg).mp ((hmem _).mp h)).1 rfl) ?_ ?_
        · intro hp
          obtain ⟨n, hn, hlt⟩ := hlow hp
          have hself : g.degreeIn (temps rs).contains r.temp =
              g.degreeIn degrees.contains r.temp := by
            refine congrArg List.length (List.filter_congr fun v hv => ?_)
            have hne : v ≠ r.temp :=
              (hg.ne (Std.ExtTreeSet.mem_toList.mp hv)).symm
            rw [hleft, contains_remove hg]
            simp [hne]
          rw [hself, ← hc _ _ hn]
          exact hlt
        · intro hp u hu
          have hmem : u ∈ degrees := by
            rw [← Std.ExtTreeMap.contains_iff_mem, ← hall, List.contains_iff_mem]
            exact hu
          obtain ⟨n, hn⟩ : ∃ n, degrees[u]? = some n :=
            ⟨_, Std.ExtTreeMap.getElem?_eq_some_getElem hmem⟩
          obtain ⟨hle, hrep⟩ := hhigh hp u n hn
          rw [degreeIn_congr hall, ← hc _ _ hn]
          exact ⟨hle, hrep⟩
      · rw [temps, List.map_append, List.mem_append, List.map_singleton, List.mem_singleton,
          hmem, mem_remove hg]
        by_cases ht : t = r.temp
        · simpa [ht] using hr
        · simp [ht]

theorem simplify_ordered (hg : g.Simple) : Ordered g k repair (g.simplify k repair) := by
  have hsize : g.degrees.size = g.size := Std.ExtTreeMap.size_map
  obtain ⟨rs, hrs, hord, -⟩ := @takeApart_eq g k repair hg _ _ [] hsize (counts_degrees hg)
  rw [simplify, hrs, List.append_nil]
  exact hord

theorem mem_simplify (hg : g.Simple) {t : Temp} :
    t ∈ temps (g.simplify k repair) ↔ t ∈ g.vertices := by
  have hsize : g.degrees.size = g.size := Std.ExtTreeMap.size_map
  obtain ⟨rs, hrs, -, hmem⟩ := @takeApart_eq g k repair hg _ _ [] hsize (counts_degrees hg)
  rw [simplify, hrs, List.append_nil, hmem, mem_degrees]

end TakeApart

/-! ## Painting -/

/-- Another graph with the same vertices and neighbours. -/
structure Recolors (g g' : Interference) : Prop where
  vertices : ∀ t, t ∈ g'.vertices ↔ t ∈ g.vertices
  neighbours : ∀ t, g'.neighbours t = g.neighbours t

/-- Colours are below `k`, and neighbours have different ones. -/
structure Proper (g : Interference) (k : Nat) : Prop where
  below : ∀ ⦃t c⦄, g.color? t = some c → c < k
  apart : ∀ ⦃x y c⦄, y ∈ g.neighbours x → g.color? x = some c → g.color? y ≠ some c

section Paint

variable {g g₁ g' : Interference} {k : Nat} {repair : TempSet} {r : Removal} {color : Option Nat}
  {t u : Temp}

theorem Recolors.refl (g : Interference) : Recolors g g := ⟨fun _ => Iff.rfl, fun _ => rfl⟩

theorem Recolors.trans (h : Recolors g g₁) (h' : Recolors g₁ g') : Recolors g g' :=
  ⟨fun t => (h'.vertices t).trans (h.vertices t),
    fun t => (h'.neighbours t).trans (h.neighbours t)⟩

theorem Recolors.simple (h : Recolors g g') (hg : g.Simple) : g'.Simple where
  symm x y hy := by
    rw [h.neighbours] at hy ⊢
    exact hg.symm hy
  ne x y hy := hg.ne (h.neighbours x ▸ hy)
  vertex x y hy := (h.vertices y).mpr (hg.vertex (h.neighbours x ▸ hy))

theorem recolors_setColor (g : Interference) (r : Removal) (color : Option Nat) :
    Recolors g (g.setColor r color) := by
  refine ⟨fun t => Std.ExtTreeMap.mem_modify, fun t => ?_⟩
  simp only [neighbours, setColor, Std.ExtTreeMap.getElem?_modify,
    Std.LawfulEqOrd.compare_eq_iff_eq]
  by_cases ht : r.temp = t
  · subst ht
    rw [if_pos rfl]
    cases g.vertices[r.temp]? with
    | none => rfl
    | some v => rfl
  · rw [if_neg ht]

theorem color?_setColor :
    (g.setColor r color).color? t =
      if t = r.temp ∧ t ∈ g.vertices then color else g.color? t := by
  simp only [color?, setColor, Std.ExtTreeMap.getElem?_modify,
    Std.LawfulEqOrd.compare_eq_iff_eq]
  by_cases ht : r.temp = t
  · subst ht
    rw [if_pos rfl]
    by_cases hv : r.temp ∈ g.vertices
    · rw [if_pos ⟨rfl, hv⟩, Std.ExtTreeMap.getElem?_eq_some_getElem hv]
      rfl
    · rw [if_neg (fun h => hv h.2), Std.ExtTreeMap.getElem?_eq_none hv]
      rfl
  · rw [if_neg ht, if_neg (fun h => ht h.1.symm)]

theorem freeColor_some {c : Nat} (h : g.freeColor k t = some c) :
    c < k ∧ ∀ u ∈ g.neighbours t, g.color? u ≠ some c := by
  rw [freeColor] at h
  refine ⟨List.mem_range.mp (List.mem_of_find?_eq_some h), fun u hu hc => ?_⟩
  have hfree : c ∉ g.taken t := by simpa using List.find?_some h
  exact hfree (List.mem_filterMap.mpr ⟨u, Std.ExtTreeSet.mem_toList.mpr hu, hc⟩)

/-- Where no colour is free, at least `k` neighbours have one. -/
theorem le_degreeIn_of_freeColor (h : g.freeColor k t = none) {among : Temp → Bool}
    (hall : ∀ u, (g.color? u).isSome → among u = true) : k ≤ g.degreeIn among t := by
  have hused : List.range k ⊆ g.taken t := by
    intro c hc
    simpa using List.find?_eq_none.mp h c hc
  have hlen : ∀ ts : List Temp, (ts.filterMap g.color?).length ≤ (ts.filter among).length := by
    intro ts
    induction ts with
    | nil => simp
    | cons u ts ih =>
      cases hu : g.color? u with
      | none =>
        rw [List.filterMap_cons_none hu]
        exact Nat.le_trans ih ((List.sublist_cons_self u ts).filter among).length_le
      | some c =>
        rw [List.filterMap_cons_some hu, List.filter_cons_of_pos (hall u (by rw [hu]; rfl))]
        exact Nat.succ_le_succ ih
  calc k = (List.range k).length := List.length_range.symm
    _ ≤ (g.taken t).length := (List.nodup_range.subperm hused).length_le
    _ ≤ g.degreeIn among t := hlen _

theorem Proper.setColor (hg : g.Simple) (h : g.Proper k) (r : Removal) :
    (g.setColor r (g.freeColor k r.temp)).Proper k := by
  constructor
  · intro t c hc
    rw [color?_setColor] at hc
    split at hc
    · exact (freeColor_some hc).1
    · exact h.below hc
  · intro x y c hy hx hy'
    rw [(recolors_setColor g r _).neighbours] at hy
    rw [color?_setColor] at hx hy'
    split at hx
    · next hxr =>
      rw [if_neg (fun hyr => hg.ne hy (hxr.1.trans hyr.1.symm))] at hy'
      exact (freeColor_some hx).2 y (hxr.1 ▸ hy) hy'
    · split at hy'
      · next hyr => exact (freeColor_some hy').2 x (hyr.1 ▸ hg.symm hy) hx
      · exact h.apart hy hx hy'

theorem paint_recolors (k : Nat) (rs : List Removal) :
    ∀ g : Interference, Recolors g (paint k g rs).1 := by
  induction rs with
  | nil => exact Recolors.refl
  | cons r rs ih => exact fun g => (recolors_setColor g r _).trans (ih _)

theorem paint_proper (rs : List Removal) :
    ∀ {g : Interference}, g.Simple → g.Proper k → (paint k g rs).1.Proper k := by
  induction rs with
  | nil => exact fun _ h => h
  | cons r rs ih =>
    exact fun hg h => ih ((recolors_setColor _ r _).simple hg) (h.setColor hg r)

/-- What has a colour or is to be coloured ends up with a colour or among the spills. -/
theorem paint_complete (rs : List Removal) :
    ∀ {g : Interference}, (g.color? t).isSome ∨ t ∈ g.vertices ∧ t ∈ temps rs →
      ((paint k g rs).1.color? t).isSome ∨ t ∈ (paint k g rs).2 := by
  induction rs with
  | nil => exact fun h => h.elim Or.inl fun h => by simp at h
  | cons r rs ih =>
    intro g h
    have hvert : t ∈ (g.setColor r (g.freeColor k r.temp)).vertices ↔ t ∈ g.vertices :=
      (recolors_setColor g r _).vertices t
    have hstep : (g.freeColor k r.temp = none ∧ t = r.temp) ∨
        ((g.setColor r (g.freeColor k r.temp)).color? t).isSome ∨
          t ∈ (g.setColor r (g.freeColor k r.temp)).vertices ∧ t ∈ temps rs := by
      rw [hvert, color?_setColor]
      by_cases ht : t = r.temp
      · cases hc : g.freeColor k r.temp with
        | none => exact Or.inl ⟨rfl, ht⟩
        | some c =>
          refine Or.inr (Or.inl ?_)
          split
          · rfl
          · next hv =>
            exact h.elim id fun h => absurd ⟨ht, h.1⟩ hv
      · rw [if_neg fun h => ht h.1]
        refine Or.inr (h.imp id fun h => ⟨h.1, ?_⟩)
        exact (List.mem_cons.mp h.2).resolve_left ht
    rw [paint]
    simp only
    rcases hstep with ⟨hnone, rfl⟩ | hstep
    · rw [hnone]
      exact Or.inr List.mem_cons_self
    · refine (ih hstep).imp_right fun hmem => ?_
      split
      · exact List.mem_cons_of_mem _ hmem
      · exact hmem

theorem paint_sublist (k : Nat) (rs : List Removal) :
    ∀ g : Interference, (paint k g rs).2.Sublist (temps rs) := by
  induction rs with
  | nil => exact fun _ => List.Sublist.slnil
  | cons r rs ih =>
    intro g
    rw [paint]
    simp only
    split
    · exact (ih _).cons_cons r.temp
    · exact (ih _).cons r.temp

/-- What is left without a colour was a potential spill. -/
theorem paint_potential {rs : List Removal} (hord : Ordered g k repair rs) {after : List Removal} :
    ∀ {before : List Removal} {g' : Interference}, rs = before ++ after → Recolors g g' →
      (∀ t, (g'.color? t).isSome → t ∈ temps before) →
      ∀ t ∈ (paint k g' after).2, ∃ r ∈ after, r.temp = t ∧ r.potentialSpill = true := by
  induction after with
  | nil => exact fun _ _ _ t ht => by cases ht
  | cons r after ih =>
    intro before g' hrs hg' hcolored t ht
    have hnext : ∀ u, ((g'.setColor r (g'.freeColor k r.temp)).color? u).isSome →
        u ∈ temps (before ++ [r]) := by
      intro u hu
      rw [temps, List.map_append, List.mem_append]
      rw [color?_setColor] at hu
      split at hu
      · next hur => exact Or.inr (by simp [hur.1])
      · exact Or.inl (hcolored u hu)
    have hrest : ∀ t ∈ (paint k (g'.setColor r (g'.freeColor k r.temp)) after).2,
        ∃ r' ∈ r :: after, r'.temp = t ∧ r'.potentialSpill = true := by
      intro t ht
      obtain ⟨r', hr', hprops⟩ := ih (by rw [hrs, List.append_assoc, List.singleton_append])
        (hg'.trans (recolors_setColor g' r _)) hnext t ht
      exact ⟨r', List.mem_cons_of_mem _ hr', hprops⟩
    rw [paint] at ht
    simp only at ht
    split at ht
    · next hnone =>
      rcases List.mem_cons.mp ht with rfl | ht
      · refine ⟨r, List.mem_cons_self, rfl, ?_⟩
        cases hp : r.potentialSpill with
        | true => rfl
        | false =>
          -- fewer than `k` neighbours have a colour, so one is free
          have hlow := hord.low before r after hrs hp
          have hle := le_degreeIn_of_freeColor (Option.isNone_iff_eq_none.mp hnone)
            (fun u hu => List.contains_iff_mem.mpr (hcolored u hu))
          rw [degreeIn, hg'.neighbours, ← degreeIn] at hle
          exact absurd hlow (Nat.not_lt_of_le hle)
      · exact hrest t ht
    · exact hrest t ht

end Paint

end MmixBackend.Interference
