import Mathlib.Data.List.Perm.Subperm
import MmixBackend.Target.Liveness

/-!
# Liveness is a least solution

The sets that repeated passes end with solve the two equations of liveness: after an instruction
is live what is live before a successor, and before it what it reads and what is live after it
and not written by it.  They are the least sets that do.

While passes run the sets only rise: they stay below what the equations would give for them.  So
a pass that changes something makes the sets larger, and since they hold nothing but temporaries
of the code the bound on the number of passes is never reached.
-/

namespace MmixBackend

/-! ## Sets of temporaries -/

namespace TempSet

variable {s s' : TempSet} {t u : Temp}

@[simp] theorem mem_insert : u ∈ s.insert t ↔ t = u ∨ u ∈ s := by
  rw [Std.ExtTreeSet.mem_insert, Std.LawfulEqOrd.compare_eq_iff_eq]

@[simp] theorem mem_erase : u ∈ s.erase t ↔ t ≠ u ∧ u ∈ s := by
  rw [Std.ExtTreeSet.mem_erase, Ne, Std.LawfulEqOrd.compare_eq_iff_eq]

theorem mem_foldl_insert (ts : List Temp) : u ∈ ts.foldl (·.insert ·) s ↔ u ∈ ts ∨ u ∈ s := by
  induction ts generalizing s with
  | nil => simp
  | cons t ts ih =>
    rw [List.foldl_cons, ih, mem_insert, List.mem_cons, or_left_comm, or_assoc, eq_comm]

theorem mem_foldl_erase (ts : List Temp) : u ∈ ts.foldl (·.erase ·) s ↔ u ∉ ts ∧ u ∈ s := by
  induction ts generalizing s with
  | nil => simp
  | cons t ts ih =>
    rw [List.foldl_cons, ih, mem_erase, List.mem_cons, not_or, and_left_comm, and_assoc, ne_comm]

theorem toList_nodup (s : TempSet) : s.toList.Nodup := by
  refine s.distinct_toList.imp fun h heq => h ?_
  rw [Std.LawfulEqOrd.compare_eq_iff_eq, heq]

theorem size_le_of_subset (h : ∀ t ∈ s, t ∈ s') : s.size ≤ s'.size := by
  have hsub : s.toList ⊆ s'.toList := fun t ht =>
    Std.ExtTreeSet.mem_toList.mpr (h t (Std.ExtTreeSet.mem_toList.mp ht))
  simpa [Std.ExtTreeSet.length_toList] using (s.toList_nodup.subperm hsub).length_le

theorem size_lt_of_subset (h : ∀ t ∈ s, t ∈ s') (hne : s ≠ s') : s.size < s'.size := by
  by_contra hlt
  refine hne (Std.ExtTreeSet.ext_mem fun t => ⟨h t, fun ht => ?_⟩)
  have hsub : s.toList ⊆ s'.toList := fun t ht =>
    Std.ExtTreeSet.mem_toList.mpr (h t (Std.ExtTreeSet.mem_toList.mp ht))
  have hlen : s'.toList.length ≤ s.toList.length := by
    simpa [Std.ExtTreeSet.length_toList] using Nat.le_of_not_lt hlt
  have hperm := (s.toList_nodup.subperm hsub).perm_of_length_le hlen
  exact Std.ExtTreeSet.mem_toList.mp (hperm.mem_iff.mpr (Std.ExtTreeSet.mem_toList.mpr ht))

end TempSet

/-! ## One instruction -/

section Equations

variable {f : Flow} {inn inn' : Array TempSet} {t : Temp}

theorem Flow.mem_out {succs : List Successor} :
    t ∈ f.out inn succs ↔ ∃ p ∈ succs, t ∈ f.liveAt inn p := by
  have hfold : ∀ (succs : List Successor) (s : TempSet),
      t ∈ succs.foldl (fun s p => s ∪ f.liveAt inn p) s ↔
        t ∈ s ∨ ∃ p ∈ succs, t ∈ f.liveAt inn p := by
    intro succs
    induction succs with
    | nil => simp
    | cons p succs ih =>
      intro s
      rw [List.foldl_cons, ih, Std.ExtTreeSet.mem_union_iff, or_assoc]
      simp
  rw [Flow.out, hfold]
  simp

theorem Flow.out_mono {succs : List Successor}
    (h : ∀ i, ∀ t ∈ inn.getD i ∅, t ∈ inn'.getD i ∅) (ht : t ∈ f.out inn succs) :
    t ∈ f.out inn' succs := by
  obtain ⟨p, hp, ht⟩ := Flow.mem_out.mp ht
  refine Flow.mem_out.mpr ⟨p, hp, ?_⟩
  cases p with
  | instr i => exact h i t ht
  | exit => exact ht

theorem Instr.mem_through {i : Instr} {out : TempSet} :
    t ∈ i.through out ↔ t ∈ i.uses ∨ t ∉ i.defs ∧ t ∈ out := by
  rw [Instr.through, TempSet.mem_foldl_insert, TempSet.mem_foldl_erase]

theorem Instr.through_mono {i : Instr} {out out' : TempSet} (h : ∀ t ∈ out, t ∈ out')
    (ht : t ∈ i.through out) : t ∈ i.through out' := by
  rw [Instr.mem_through] at ht ⊢
  exact ht.imp_right fun ht => ⟨ht.1, h t ht.2⟩

end Equations

namespace Liveness

/-- The sets with those of an instruction computed anew. -/
def visit (f : Flow) (i : Nat) (instr : Instr) (live : Liveness) : Liveness :=
  let out := f.out live.liveIn (f.successors.getD i [])
  { live with
    liveIn := live.liveIn.setIfInBounds i (instr.through out)
    liveOut := live.liveOut.setIfInBounds i out }

theorem getD_setIfInBounds (sets : Array TempSet) (i j : Nat) (s : TempSet) :
    (sets.setIfInBounds i s).getD j ∅ = if i = j ∧ j < sets.size then s else sets.getD j ∅ := by
  rw [Array.getD_eq_getD_getElem?, Array.getD_eq_getD_getElem?, Array.getElem?_setIfInBounds]
  by_cases h : i = j
  · by_cases hj : j < sets.size
    · simp [h, hj]
    · simp [h, hj]
  · simp [h]

/-- A pass computes the sets of one instruction after another. -/
theorem sweep_induction {f : Flow} {P : Liveness → Prop}
    (hvisit : ∀ {i instr live}, f.instrs[i]? = some instr → P live → P (visit f i instr live)) :
    ∀ {n changed live}, P live → P (sweep f n changed live).2 := by
  intro n
  induction n with
  | zero => exact fun h => h
  | succ i ih =>
    intro changed live h
    rw [sweep]
    split
    · exact ih h
    · next instr hi =>
      simp only
      split
      · exact ih h
      · exact ih (hvisit hi h)

/-! ## Sets that only rise -/

/-- The sets stay below what the equations give for them. -/
structure Rising (f : Flow) (live : Liveness) : Prop where
  liveIn_size : live.liveIn.size = f.instrs.size
  liveOut_size : live.liveOut.size = f.instrs.size
  out : ∀ i, ∀ t ∈ live.liveOut.getD i ∅, t ∈ f.out live.liveIn (f.successors.getD i [])
  inn : ∀ i instr, f.instrs[i]? = some instr →
    ∀ t ∈ live.liveIn.getD i ∅, t ∈ instr.through (live.liveOut.getD i ∅)

/-- No set loses anything. -/
def Grows (live live' : Liveness) : Prop :=
  ∀ i t, (t ∈ live.liveIn.getD i ∅ → t ∈ live'.liveIn.getD i ∅) ∧
    (t ∈ live.liveOut.getD i ∅ → t ∈ live'.liveOut.getD i ∅)

section Rising

variable {f : Flow} {live live' : Liveness} {i : Nat} {instr : Instr}

/-- What an instruction's sets become is no less than what they are. -/
theorem Rising.le_visit (h : Rising f live) (hi : f.instrs[i]? = some instr) :
    (∀ t ∈ live.liveOut.getD i ∅, t ∈ f.out live.liveIn (f.successors.getD i [])) ∧
      ∀ t ∈ live.liveIn.getD i ∅,
        t ∈ instr.through (f.out live.liveIn (f.successors.getD i [])) :=
  ⟨h.out i, fun t ht => Instr.through_mono (h.out i) (h.inn i instr hi t ht)⟩

theorem Rising.grows_visit (h : Rising f live) (hi : f.instrs[i]? = some instr) :
    Grows live (visit f i instr live) := by
  obtain ⟨hout, hinn⟩ := h.le_visit hi
  intro j t
  simp only [visit, getD_setIfInBounds]
  constructor
  · intro ht
    split
    · next hj => exact hinn t (hj.1 ▸ ht)
    · exact ht
  · intro ht
    split
    · next hj => exact hout t (hj.1 ▸ ht)
    · exact ht

theorem Rising.visit (h : Rising f live) (hi : f.instrs[i]? = some instr) :
    Rising f (visit f i instr live) := by
  have hgrows := h.grows_visit hi
  refine ⟨?_, ?_, ?_, ?_⟩
  · simpa [Liveness.visit] using h.liveIn_size
  · simpa [Liveness.visit] using h.liveOut_size
  · intro j t ht
    refine Flow.out_mono (fun i t => (hgrows i t).1) ?_
    simp only [Liveness.visit, getD_setIfInBounds] at ht
    split at ht
    · next hj => exact hj.1 ▸ ht
    · exact h.out j t ht
  · intro j instr' hj t ht
    simp only [Liveness.visit, getD_setIfInBounds, h.liveIn_size, h.liveOut_size] at ht ⊢
    split at ht
    · next hc =>
      obtain ⟨rfl, hlt⟩ := hc
      rw [if_pos ⟨rfl, hlt⟩]
      rw [hi] at hj
      cases hj
      exact ht
    · next hc =>
      rw [if_neg hc]
      exact h.inn j instr' hj t ht

theorem Rising.sweep (h : Rising f live) (n : Nat) (changed : Bool) :
    Rising f (sweep f n changed live).2 :=
  sweep_induction (fun hi h => h.visit hi) h

end Rising

/-! ## Passes come to an end -/

/-- The number of temporaries in sets. -/
def sizes : List TempSet → Nat
  | [] => 0
  | s :: sets => s.size + sizes sets

def total (live : Liveness) : Nat := sizes live.liveIn.toList + sizes live.liveOut.toList

theorem sizes_set (sets : List TempSet) {i : Nat} (h : i < sets.length) (s : TempSet) :
    sizes (sets.set i s) + sets[i].size = sizes sets + s.size := by
  induction sets generalizing i with
  | nil => simp at h
  | cons u sets ih =>
    cases i with
    | zero =>
      simp only [List.set_cons_zero, sizes, List.getElem_cons_zero]
      omega
    | succ i =>
      have hi := ih (by simpa using h)
      simp only [List.set_cons_succ, sizes, List.getElem_cons_succ]
      omega

/-- What a set that is put in place of another one adds. -/
theorem sizes_setIfInBounds (sets : Array TempSet) {i : Nat} (h : i < sets.size) (s : TempSet) :
    sizes (sets.setIfInBounds i s).toList + (sets.getD i ∅).size = sizes sets.toList + s.size := by
  have hset := sizes_set sets.toList (by simpa using h) s
  simpa [Array.getD, h] using hset

theorem Rising.total_lt_visit {f : Flow} {live : Liveness} {i : Nat} {instr : Instr}
    (h : Rising f live) (hi : f.instrs[i]? = some instr)
    (hne : ¬ (f.out live.liveIn (f.successors.getD i []) = live.liveOut.getD i ∅ ∧
      instr.through (f.out live.liveIn (f.successors.getD i [])) = live.liveIn.getD i ∅)) :
    live.total < (Liveness.visit f i instr live).total := by
  have hlt : i < f.instrs.size := (Array.getElem?_eq_some_iff.mp hi).1
  have hin := sizes_setIfInBounds live.liveIn (h.liveIn_size ▸ hlt)
    (instr.through (f.out live.liveIn (f.successors.getD i [])))
  have hout := sizes_setIfInBounds live.liveOut (h.liveOut_size ▸ hlt)
    (f.out live.liveIn (f.successors.getD i []))
  obtain ⟨hle, hle'⟩ := h.le_visit hi
  have hsize := TempSet.size_le_of_subset hle
  have hsize' := TempSet.size_le_of_subset hle'
  simp only [total, Liveness.visit]
  by_cases ho : live.liveOut.getD i ∅ = f.out live.liveIn (f.successors.getD i [])
  · have hi' := TempSet.size_lt_of_subset hle' fun heq => hne ⟨ho.symm, heq.symm⟩
    omega
  · have ho' := TempSet.size_lt_of_subset hle ho
    omega

/-- A pass changes nothing and says so, or makes the sets larger. -/
theorem Rising.sweep_cases {f : Flow} :
    ∀ {n : Nat} {changed : Bool} {live : Liveness}, Rising f live →
      (Liveness.sweep f n changed live = (changed, live) ∧
        ∀ i instr, i < n → f.instrs[i]? = some instr →
          f.out live.liveIn (f.successors.getD i []) = live.liveOut.getD i ∅ ∧
          instr.through (f.out live.liveIn (f.successors.getD i [])) = live.liveIn.getD i ∅) ∨
      (Liveness.sweep f n changed live).1 = true ∧
        live.total < (Liveness.sweep f n changed live).2.total := by
  intro n
  induction n with
  | zero => exact fun _ => Or.inl ⟨rfl, fun i instr hi => absurd hi (Nat.not_lt_zero i)⟩
  | succ n ih =>
    intro changed live h
    rw [Liveness.sweep]
    split
    · next hn =>
      refine (ih h).imp_left fun ⟨hs, heq⟩ => ⟨hs, fun i instr hi hget => ?_⟩
      refine heq i instr (Nat.lt_of_le_of_ne (Nat.le_of_lt_succ hi) ?_) hget
      rintro rfl
      rw [hn] at hget
      cases hget
    · next instr hn =>
      simp only
      split
      · next hsame =>
        refine (ih h).imp_left fun ⟨hs, heq⟩ => ⟨hs, fun i instr' hi hget => ?_⟩
        rcases Nat.lt_succ_iff_lt_or_eq.mp hi with hi | rfl
        · exact heq i instr' hi hget
        · rw [hn] at hget
          cases hget
          exact hsame
      · next hne =>
        have hlt := h.total_lt_visit hn hne
        right
        rcases @ih true _ (h.visit hn) with ⟨hs, -⟩ | ⟨hc, hlt'⟩
        · refine ⟨congrArg Prod.fst hs, ?_⟩
          exact Nat.lt_of_lt_of_eq hlt (congrArg (fun r => total r.2) hs).symm
        · exact ⟨hc, Nat.lt_trans hlt hlt'⟩

/-! ## Sets below a solution -/

/-- What is live is among given temporaries. -/
def Below (inn out : Nat → Temp → Prop) (live : Liveness) : Prop :=
  ∀ i t, (t ∈ live.liveIn.getD i ∅ → inn i t) ∧ (t ∈ live.liveOut.getD i ∅ → out i t)

end Liveness

/-- What is live before a place, for given temporaries before each instruction. -/
def Flow.before (f : Flow) (inn : Nat → Temp → Prop) : Successor → Temp → Prop
  | .instr i => inn i
  | .exit => (· ∈ f.atExit)

/-- Temporaries before and after each instruction that are at least what the equations of liveness
give for them. -/
structure Flow.Closed (f : Flow) (inn out : Nat → Temp → Prop) : Prop where
  flows : ∀ i, ∀ p ∈ f.successors.getD i [], ∀ t, f.before inn p t → out i t
  uses : ∀ i instr, f.instrs[i]? = some instr → ∀ t ∈ instr.uses, inn i t
  through : ∀ i instr, f.instrs[i]? = some instr → ∀ t, out i t → t ∉ instr.defs → inn i t

/-- Sets that solve the equations of liveness. -/
structure Flow.Solved (f : Flow) (live : Liveness) : Prop where
  liveIn_size : live.liveIn.size = f.instrs.size
  liveOut_size : live.liveOut.size = f.instrs.size
  out : ∀ i, i < f.instrs.size →
    live.liveOut.getD i ∅ = f.out live.liveIn (f.successors.getD i [])
  inn : ∀ i instr, f.instrs[i]? = some instr →
    live.liveIn.getD i ∅ = instr.through (live.liveOut.getD i ∅)

namespace Liveness

section Below

variable {f : Flow} {inn out : Nat → Temp → Prop} {live : Liveness}

theorem Below.visit (hc : f.Closed inn out) (h : Below inn out live) {i : Nat} {instr : Instr}
    (hi : f.instrs[i]? = some instr) : Below inn out (visit f i instr live) := by
  have hout : ∀ t ∈ f.out live.liveIn (f.successors.getD i []), out i t := by
    intro t ht
    obtain ⟨p, hp, ht⟩ := Flow.mem_out.mp ht
    refine hc.flows i p hp t ?_
    cases p with
    | instr j => exact (h j t).1 ht
    | exit => exact ht
  intro j t
  simp only [Liveness.visit, getD_setIfInBounds]
  constructor
  · split
    · next hj =>
      obtain ⟨rfl, -⟩ := hj
      intro ht
      rcases Instr.mem_through.mp ht with hu | ⟨hd, ho⟩
      · exact hc.uses i instr hi t hu
      · exact hc.through i instr hi t (hout t ho) hd
    · exact (h j t).1
  · split
    · next hj =>
      obtain ⟨rfl, -⟩ := hj
      exact hout t
    · exact (h j t).2

/-- The sets at the start of a pass. -/
def resized (live : Liveness) (f : Flow) : Liveness :=
  { liveIn := resize f.instrs.size live.liveIn
    liveOut := resize f.instrs.size live.liveOut
    passes := live.passes + 1 }

theorem refine_eq (live : Liveness) (f : Flow) :
    live.refine f = sweep f f.instrs.size false (live.resized f) := rfl

theorem getD_resize (n : Nat) (sets : Array TempSet) (i : Nat) :
    (resize n sets).getD i ∅ = if i < n then sets.getD i ∅ else ∅ := by
  simp only [resize, Array.getD_eq_getD_getElem?, Array.getElem?_append, Array.size_extract,
    Array.getElem?_extract, Array.getElem?_replicate, Nat.sub_zero, Nat.zero_add]
  rcases Nat.lt_or_ge i (min n sets.size) with h | h
  · have hn : i < n := by omega
    simp only [if_pos h, if_pos hn]
  · simp only [if_neg (Nat.not_lt_of_le h)]
    by_cases hn : i < n
    · have hs : sets.size ≤ i := by omega
      have hr : i - min n sets.size < n - sets.size := by omega
      simp only [if_pos hr, if_pos hn, Array.getElem?_eq_none hs, Option.getD_some,
        Option.getD_none]
    · have hr : ¬ i - min n sets.size < n - sets.size := by omega
      simp only [if_neg hr, if_neg hn, Option.getD_none]

theorem resize_of_size {n : Nat} {sets : Array TempSet} (h : sets.size = n) :
    resize n sets = sets := by
  subst h
  simp [resize]

theorem Below.resized (h : Below inn out live) (f : Flow) : Below inn out (live.resized f) := by
  intro i t
  simp only [Liveness.resized, getD_resize]
  constructor
  · split
    · exact (h i t).1
    · simp
  · split
    · exact (h i t).2
    · simp

theorem Below.sweep (hc : f.Closed inn out) (h : Below inn out live) (n : Nat) (changed : Bool) :
    Below inn out (sweep f n changed live).2 :=
  sweep_induction (fun hi h => h.visit hc hi) h

theorem Below.iterate (hc : f.Closed inn out) {bound : Nat} :
    ∀ {live : Liveness}, Below inn out live → Below inn out (iterate f bound live) := by
  induction bound with
  | zero => exact fun h => h
  | succ bound ih =>
    intro live h
    have hr := (h.resized f).sweep hc f.instrs.size false
    rw [Liveness.iterate, refine_eq]
    simp only
    split
    · exact ih hr
    · exact hr

theorem below_empty : Below inn out {} := by
  intro i t
  simp

end Below

section Bound

variable {f : Flow} {live : Liveness} {T : TempSet}

theorem sizes_le {sets : List TempSet} (h : ∀ s ∈ sets, s.size ≤ T.size) :
    sizes sets ≤ sets.length * T.size := by
  induction sets with
  | nil => exact Nat.zero_le _
  | cons s sets ih =>
    have hs := h s List.mem_cons_self
    have hsets := ih fun s hs => h s (List.mem_cons_of_mem _ hs)
    rw [sizes, List.length_cons, Nat.succ_mul]
    omega

theorem sizes_toList_le {sets : Array TempSet} (h : ∀ i, ∀ t ∈ sets.getD i ∅, t ∈ T) :
    sizes sets.toList ≤ sets.size * T.size := by
  rw [← Array.length_toList]
  refine sizes_le fun s hs => ?_
  obtain ⟨i, hi, rfl⟩ := Array.getElem_of_mem (Array.mem_toList_iff.mp hs)
  exact TempSet.size_le_of_subset fun t ht => h i t (by simpa [Array.getD, hi] using ht)

theorem Rising.total_le (h : Rising f live)
    (hT : Below (fun _ t => t ∈ T) (fun _ t => t ∈ T) live) :
    live.total ≤ 2 * f.instrs.size * T.size := by
  have hin := sizes_toList_le fun i t => (hT i t).1
  have hout := sizes_toList_le fun i t => (hT i t).2
  rw [h.liveIn_size] at hin
  rw [h.liveOut_size] at hout
  calc live.total ≤ f.instrs.size * T.size + f.instrs.size * T.size := Nat.add_le_add hin hout
    _ = 2 * f.instrs.size * T.size := by rw [Nat.two_mul, Nat.add_mul]

theorem Rising.congr {live' : Liveness} (h : Rising f live) (hin : live'.liveIn = live.liveIn)
    (hout : live'.liveOut = live.liveOut) : Rising f live' := by
  constructor
  · exact hin ▸ h.liveIn_size
  · exact hout ▸ h.liveOut_size
  · exact hin ▸ hout ▸ h.out
  · exact hin ▸ hout ▸ h.inn

theorem Rising.resized (h : Rising f live) : Rising f (live.resized f) :=
  h.congr (resize_of_size h.liveIn_size) (resize_of_size h.liveOut_size)

theorem Rising.total_resized (h : Rising f live) : (live.resized f).total = live.total := by
  simp only [total, Liveness.resized, resize_of_size h.liveIn_size,
    resize_of_size h.liveOut_size]

theorem rising_start (f : Flow) : Rising f (resized {} f) := by
  have hnone : Below (fun _ _ => False) (fun _ _ => False) (resized {} f) :=
    below_empty.resized f
  refine ⟨?_, ?_, fun i t ht => ((hnone i t).2 ht).elim, fun i _ _ t ht => ((hnone i t).1 ht).elim⟩
  · simp [resized, resize]
  · simp [resized, resize]

/-- Passes from given sets, repeated until one changes nothing, end with other sets. -/
inductive Ends (f : Flow) : Liveness → Liveness → Prop
  | last {live live' : Liveness} (h : live.refine f = (false, live')) : Ends f live live'
  | again {live mid live' : Liveness} (h : live.refine f = (true, mid)) (rest : Ends f mid live') :
      Ends f live live'

/-- With room for one more pass than there are temporaries to find, passes come to an end. -/
theorem iterate_ends (hc : f.Closed (fun _ t => t ∈ T) (fun _ t => t ∈ T)) {bound : Nat} :
    ∀ {live : Liveness}, Rising f (live.resized f) →
      Below (fun _ t => t ∈ T) (fun _ t => t ∈ T) live →
      2 * f.instrs.size * T.size < (live.resized f).total + bound →
      Ends f live (iterate f bound live) := by
  induction bound with
  | zero =>
    intro live h hT hlt
    exact absurd (h.total_le (hT.resized f)) (Nat.not_le_of_lt hlt)
  | succ bound ih =>
    intro live h hT hlt
    rw [Liveness.iterate, refine_eq]
    simp only
    have hrise := h.sweep f.instrs.size false
    rcases @Rising.sweep_cases f f.instrs.size false _ h with ⟨hs, -⟩ | ⟨hch, hgrow⟩
    · rw [hs, if_neg (by simp)]
      exact .last hs
    · rw [if_pos hch]
      refine .again (Prod.ext hch rfl) (ih hrise.resized ((hT.resized f).sweep hc _ _) ?_)
      rw [refine_eq, hrise.total_resized]
      omega

/-- Where passes end the equations are solved. -/
theorem Ends.solved {live' : Liveness} (he : Ends f live live') (h : Rising f (live.resized f)) :
    f.Solved live' := by
  induction he with
  | @last live live' heq =>
    rw [refine_eq] at heq
    rcases @Rising.sweep_cases f f.instrs.size false _ h with ⟨hs, hsame⟩ | ⟨hch, -⟩
    · obtain rfl : live.resized f = live' := congrArg Prod.snd (hs.symm.trans heq)
      refine ⟨h.liveIn_size, h.liveOut_size, fun i hi => ?_, fun i instr hi => ?_⟩
      · exact (hsame i _ hi (Array.getElem?_eq_getElem hi)).1.symm
      · obtain ⟨ho, hin⟩ := hsame i instr (Array.getElem?_eq_some_iff.mp hi).1 hi
        rw [← ho, hin]
    · rw [heq] at hch
      cases hch
  | @again live mid live' heq rest ih =>
    rw [refine_eq] at heq
    have hrise := h.sweep f.instrs.size false
    rw [heq] at hrise
    exact ih hrise.resized

end Bound

end Liveness

/-! ## The liveness of code -/

namespace Code

variable {c : Code} {t : Temp}

/-- An instruction reads or writes the temporary. -/
def Mentions (c : Code) (t : Temp) : Prop := ∃ i ∈ c.instrs, t ∈ i.uses ∨ t ∈ i.defs

theorem mem_temps : t ∈ c.temps ↔ c.Mentions t ∨ t = c.frame.fp ∨ t = c.frame.rv := by
  rw [temps, Std.ExtTreeSet.mem_ofList, List.contains_iff_mem]
  simp [Mentions]

theorem mem_liveAtExit : t ∈ c.liveAtExit ↔ t = c.frame.rv ∧ c.frame.rv ∉ c.slots := by
  rw [liveAtExit]
  split
  · next h => simpa using fun _ => h
  · next h =>
    rw [TempSet.mem_insert]
    have hmem : c.frame.rv ∉ c.slots := by simpa using h
    simp [hmem, eq_comm]

@[simp] theorem flow_instrs (c : Code) (i : Nat) : c.flow.instrs[i]? = c.instrs[i]? := by
  simp [flow]

@[simp] theorem flow_instrs_size (c : Code) : c.flow.instrs.size = c.instrs.length := by
  simp [flow]

variable {i : Nat} {is : List Instr} {l : Label}

theorem flow_successors {instr : Instr} (h : c.instrs[i]? = some instr) :
    c.flow.successors.getD i [] =
      c.successorsAt (labelsFrom 0 ∅ c.instrs) c.instrs.length i instr := by
  simp [flow, Array.getD_eq_getD_getElem?, h]

theorem flow_successors_of_le (h : c.instrs.length ≤ i) :
    c.flow.successors.getD i [] = [] := by
  simp [flow, Array.getD_eq_getD_getElem?, h]

/-- The label stands at a position, and at no later one. -/
def LastAt (is : List Instr) (l : Label) (i : Nat) : Prop :=
  is[i]? = some (.label l) ∧ ∀ k, i < k → is[k]? ≠ some (.label l)

theorem lastAt_cons_succ {instr : Instr} :
    LastAt (instr :: is) l (i + 1) ↔ LastAt is l i := by
  constructor
  · rintro ⟨hi, hlast⟩
    refine ⟨by simpa using hi, fun k hk => ?_⟩
    simpa using hlast (k + 1) (Nat.succ_lt_succ hk)
  · rintro ⟨hi, hlast⟩
    refine ⟨by simpa using hi, fun k hk => ?_⟩
    obtain ⟨k, rfl⟩ := Nat.exists_eq_add_one_of_ne_zero (Nat.ne_of_gt (Nat.zero_lt_of_lt hk))
    simpa using hlast k (Nat.lt_of_succ_lt_succ hk)

theorem lastAt_cons_zero {instr : Instr} :
    LastAt (instr :: is) l 0 ↔ instr = .label l ∧ .label l ∉ is := by
  constructor
  · rintro ⟨hi, hlast⟩
    refine ⟨by simpa using hi, fun hmem => ?_⟩
    obtain ⟨k, hk⟩ := List.mem_iff_getElem?.mp hmem
    exact hlast (k + 1) k.succ_pos (by simpa using hk)
  · rintro ⟨rfl, hnot⟩
    refine ⟨rfl, fun k hk hget => hnot ?_⟩
    obtain ⟨k, rfl⟩ := Nat.exists_eq_add_one_of_ne_zero (Nat.ne_of_gt hk)
    exact List.mem_of_getElem? (by simpa using hget)

/-- A label is found where it stands last, or where it was found before. -/
theorem getElem?_labelsFrom {j : Nat} :
    ∀ {position : Nat} {found : Table Label Nat},
      (labelsFrom position found is)[l]? = some j ↔
        (∃ i, j = position + i ∧ LastAt is l i) ∨ .label l ∉ is ∧ found[l]? = some j := by
  induction is with
  | nil => simp [labelsFrom, LastAt]
  | cons instr is ih =>
    intro position found
    -- the positions of the rest, and the place of the first instruction
    have hshift : (∃ i, j = position + i ∧ LastAt (instr :: is) l i) ↔
        (j = position ∧ instr = .label l ∧ .label l ∉ is) ∨
          ∃ i, j = position + 1 + i ∧ LastAt is l i := by
      constructor
      · rintro ⟨i, hj, hi⟩
        cases i with
        | zero => exact Or.inl ⟨hj, lastAt_cons_zero.mp hi⟩
        | succ i => exact Or.inr ⟨i, by omega, lastAt_cons_succ.mp hi⟩
      · rintro (⟨rfl, hi⟩ | ⟨i, rfl, hi⟩)
        · exact ⟨0, rfl, lastAt_cons_zero.mpr hi⟩
        · exact ⟨i + 1, by omega, lastAt_cons_succ.mpr hi⟩
    rw [hshift]
    cases instr with
    | oper | move =>
      rw [labelsFrom.eq_3 _ _ _ _ (by simp), ih]
      simp
    | label l' =>
      rw [labelsFrom, ih, Std.ExtTreeMap.getElem?_insert]
      simp only [Std.LawfulEqOrd.compare_eq_iff_eq, List.mem_cons, not_or, Instr.label.injEq]
      by_cases hl : l' = l
      · simp only [hl, if_true, Option.some.injEq]
        grind
      · simp only [hl, if_false]
        grind

theorem getElem?_labels {j : Nat} :
    (labelsFrom 0 ∅ c.instrs)[l]? = some j ↔ LastAt c.instrs l j := by
  rw [getElem?_labelsFrom]
  simp

theorem label_of_target? {j : Nat} (h : c.target? (labelsFrom 0 ∅ c.instrs) l = some (.instr j)) :
    c.instrs[j]? = some (.label l) := by
  rw [target?] at h
  split at h
  · cases h
  · obtain ⟨j', hj, heq⟩ := Option.map_eq_some_iff.mp h
    cases heq
    exact (getElem?_labels.mp hj).1

/-- Nothing but what is read, or returned, is ever live. -/
theorem closed_read (c : Code) :
    c.flow.Closed (fun _ t => (∃ i ∈ c.instrs, t ∈ i.uses) ∨ t ∈ c.liveAtExit)
      (fun _ t => (∃ i ∈ c.instrs, t ∈ i.uses) ∨ t ∈ c.liveAtExit) where
  flows i p _ t ht := by
    cases p with
    | instr j => exact ht
    | exit => exact Or.inr ht
  uses i instr hi t ht := by
    rw [flow_instrs] at hi
    exact Or.inl ⟨instr, List.mem_of_getElem? hi, ht⟩
  through i instr _ t ht _ := ht

theorem liveness_below {inn out : Nat → Temp → Prop} (h : c.flow.Closed inn out) :
    Liveness.Below inn out c.liveness :=
  Liveness.below_empty.iterate h

theorem read_of_mem_liveIn (h : t ∈ c.liveness.liveIn.getD i ∅) :
    (∃ i ∈ c.instrs, t ∈ i.uses) ∨ t ∈ c.liveAtExit :=
  (liveness_below c.closed_read i t).1 h

theorem read_of_mem_liveOut (h : t ∈ c.liveness.liveOut.getD i ∅) :
    (∃ i ∈ c.instrs, t ∈ i.uses) ∨ t ∈ c.liveAtExit :=
  (liveness_below c.closed_read i t).2 h

theorem closed_temps (c : Code) :
    c.flow.Closed (fun _ t => t ∈ c.temps) (fun _ t => t ∈ c.temps) where
  flows i p _ t ht := by
    cases p with
    | instr j => exact ht
    | exit => exact mem_temps.mpr (Or.inr (Or.inr (mem_liveAtExit.mp ht).1))
  uses i instr hi t ht := by
    rw [flow_instrs] at hi
    exact mem_temps.mpr (Or.inl ⟨instr, List.mem_of_getElem? hi, Or.inl ht⟩)
  through i instr _ t ht _ := ht

/-- The passes over code come to an end before their bound is reached. -/
theorem liveness_ends (c : Code) : Liveness.Ends c.flow {} c.liveness := by
  refine Liveness.iterate_ends c.closed_temps (Liveness.rising_start c.flow)
    Liveness.below_empty ?_
  rw [flow_instrs_size, passBound]
  omega

theorem liveness_solved (c : Code) : c.flow.Solved c.liveness :=
  c.liveness_ends.solved (Liveness.rising_start c.flow)

end Code

end MmixBackend
