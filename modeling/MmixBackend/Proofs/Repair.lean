import Mathlib.Data.List.Nodup
import Mathlib.Data.List.Pairwise
import MmixBackend.Proofs.Coloring
import MmixBackend.Proofs.Spilling

/-!
# Temporaries from spills

A spill brings in new temporaries, and allocation must not have to spill those in turn.  It never
does: an instruction with the loads before it and the store after it forms a block, the new
temporaries of a block are live inside it only, and an instruction has at most two loads.  So
among any of them there is one that interferes with at most one of the others.

What may be live is written down next to the instructions, as an annotation, and checked one
instruction at a time; liveness, being the least solution, stays below it.
-/

namespace MmixBackend

/-! ## Annotations -/

/-- Instructions, each with temporaries that may be live before it. -/
abbrev Annotated := List (Instr × List Temp)

variable {offset x y : Temp} {slot : Word} {first rest : List Temp}

namespace Annotated

variable {pair : Temp → Temp → Prop} {xs ys es : Annotated} {after : List Temp}

/-- What may be live before the first instruction, or after all if there is none. -/
def entry (es : Annotated) (after : List Temp) : List Temp :=
  match es with
  | [] => after
  | e :: _ => e.2

/-- What may be live after an instruction is so before it or is written by it, and forms a pair with
what is written. -/
structure Flows (pair : Temp → Temp → Prop) (e : Instr × List Temp) (after : List Temp) :
    Prop where
  live : ∀ t ∈ after, t ∈ e.2 ∨ t ∈ e.1.defs
  pairs : ∀ x ∈ e.1.defs, ∀ y ∈ after, x ≠ y → pair x y

/-- Each instruction flows into what follows it. -/
def Consistent (pair : Temp → Temp → Prop) : Annotated → List Temp → Prop
  | [], _ => True
  | e :: es, after => Flows pair e (entry es after) ∧ Consistent pair es after

variable {e : Instr × List Temp} {last : Instr}

theorem flows_nil : Flows pair e [] := ⟨by simp, by simp⟩

theorem Flows.mono {pair' : Temp → Temp → Prop} (h : Flows pair e after)
    (hle : ∀ x y, pair x y → pair' x y) : Flows pair' e after :=
  ⟨h.live, fun x hx y hy hne => hle x y (h.pairs x hx y hy hne)⟩

theorem entry_append (xs ys : Annotated) (after : List Temp) :
    entry (xs ++ ys) after = entry xs (entry ys after) := by
  cases xs <;> rfl

theorem consistent_append :
    Consistent pair (xs ++ ys) after ↔
      Consistent pair xs (entry ys after) ∧ Consistent pair ys after := by
  induction xs with
  | nil => simp [Consistent]
  | cons e xs ih =>
    rw [List.cons_append, Consistent, Consistent, ih, entry_append, and_assoc]

theorem Consistent.mono {pair' : Temp → Temp → Prop} (hle : ∀ x y, pair x y → pair' x y) :
    ∀ {es : Annotated}, Consistent pair es after → Consistent pair' es after := by
  intro es
  induction es with
  | nil => exact fun h => h
  | cons e es ih => exact fun h => ⟨h.1.mono hle, ih h.2⟩

/-- What may be live before a position. -/
def liveAt (es : Annotated) (i : Nat) : List Temp :=
  match es[i]? with
  | some e => e.2
  | none => []

theorem Consistent.flows (h : Consistent pair es []) {i : Nat} (hi : es[i]? = some e) :
    Flows pair e (es.liveAt (i + 1)) := by
  induction es generalizing i with
  | nil => cases hi
  | cons e' es ih =>
    cases i with
    | zero =>
      cases hi
      have hentry : entry es [] = liveAt (e :: es) 1 := by
        cases es <;> rfl
      exact hentry ▸ h.1
    | succ i => exact ih h.2 hi

/-! ## Loads and stores -/

/-- Instructions in which other temporaries may be live before the first one than before the
rest. -/
def annotate (first rest : List Temp) : List Instr → Annotated
  | [] => []
  | i :: is => (i, first) :: is.map fun i => (i, rest)

theorem map_fst_annotate (first rest : List Temp) (is : List Instr) :
    (annotate first rest is).map Prod.fst = is := by
  cases is with
  | nil => rfl
  | cons i is => simp [annotate, Function.comp_def]

/-- The offset of a slot is put into a temporary, and then the slot is used. -/
theorem consistent_slot {before : List Temp} (hpair : ∀ y ∈ before, pair offset y)
    (hlast : Flows pair (last, offset :: before) after) :
    Consistent pair (annotate before (offset :: before) (loadConstant offset slot ++ [last]))
      after := by
  -- each instruction of the constant writes the offset
  have hflows : ∀ (i : Instr) (first : List Temp), i.defs = [offset] →
      (∀ t ∈ before, t ∈ first) → Flows pair (i, first) (offset :: before) := by
    intro i first hd hfirst
    refine ⟨fun t ht => ?_, fun x hx y hy hne => ?_⟩
    · rcases List.mem_cons.mp ht with rfl | ht
      · exact Or.inr (by simp [hd])
      · exact Or.inl (hfirst t ht)
    · obtain rfl : x = offset := by simpa [hd] using hx
      exact hpair y ((List.mem_cons.mp hy).resolve_left (Ne.symm hne))
  have hrest : ∀ is : List Instr, (∀ i ∈ is, i.defs = [offset]) →
      Consistent pair ((is ++ [last]).map fun i => (i, offset :: before)) after ∧
        entry ((is ++ [last]).map fun i => (i, offset :: before)) after = offset :: before := by
    intro is
    induction is with
    | nil => exact fun _ => ⟨⟨hlast, trivial⟩, rfl⟩
    | cons i is ih =>
      intro hdefs
      obtain ⟨hcons, hentry⟩ := ih fun j hj => hdefs j (List.mem_cons_of_mem _ hj)
      refine ⟨⟨?_, hcons⟩, rfl⟩
      show Flows pair (i, offset :: before)
        (entry ((is ++ [last]).map fun i => (i, offset :: before)) after)
      rw [hentry]
      exact hflows i _ (hdefs i List.mem_cons_self) fun t ht => List.mem_cons_of_mem _ ht
  obtain ⟨n, is, his⟩ := loadConstant_eq offset slot
  have hdefs : ∀ i ∈ is, i.defs = [offset] := fun i hi =>
    (mem_loadConstant (v := slot) (by rw [his]; exact List.mem_cons_of_mem _ hi)).2.1
  obtain ⟨hcons, hentry⟩ := hrest is hdefs
  rw [his]
  refine ⟨?_, hcons⟩
  show Flows pair (_, before) (entry ((is ++ [last]).map fun i => (i, offset :: before)) after)
  rw [hentry]
  exact hflows _ _ rfl fun t ht => ht

theorem entry_slot :
    entry (annotate first rest (loadConstant offset slot ++ [last])) after = first := by
  obtain ⟨n, is, his⟩ := loadConstant_eq offset slot
  rw [his]
  rfl

/-- What the instructions for a slot read may be live before them, given that this is so of the last
one. -/
theorem uses_slot (h : e ∈ annotate first rest (loadConstant offset slot ++ [last])) :
    (e.2 = first ∧ e.1.uses = [] ∨ e.2 = rest ∧ ∀ u ∈ e.1.uses, u = offset) ∨ e = (last, rest) := by
  obtain ⟨n, is, his⟩ := loadConstant_eq offset slot
  rw [his] at h
  rcases List.mem_cons.mp h with rfl | h
  · exact Or.inl (Or.inl ⟨rfl, rfl⟩)
  · obtain ⟨i, hi, rfl⟩ := List.mem_map.mp h
    rcases List.mem_append.mp hi with hi | hi
    · have hmem : i ∈ loadConstant offset slot := by
        rw [his]
        exact List.mem_cons_of_mem _ hi
      exact Or.inl (Or.inr ⟨rfl, (mem_loadConstant hmem).1⟩)
    · rw [List.mem_singleton.mp hi]
      exact Or.inr rfl

end Annotated

/-! ## Blocks -/

/-- A load of a slot or a store into one, with the temporaries it takes. -/
structure Transfer where
  offset : Temp
  value : Temp
  slot : Word

def Transfer.temps (t : Transfer) : List Temp := [t.offset, t.value]

/-- An instruction with the loads before it and the store after it. -/
structure Block where
  loads : List Transfer
  core : Instr
  store : Option Transfer

namespace Block

open Annotated

variable {fp : Temp} {old : TempSet} {b : Block}

/-- The instructions of a block. -/
def code (fp : Temp) (b : Block) : List Instr :=
  b.loads.flatMap (fun l => loadSlot fp l.slot l.offset l.value) ++
    b.core :: b.store.toList.flatMap fun s => storeSlot fp s.slot s.offset s.value

def temps (b : Block) : List Temp :=
  b.loads.flatMap Transfer.temps ++ b.store.toList.flatMap Transfer.temps

/-- Loads, with values that were loaded before. -/
def annotatedLoads (fp : Temp) (before : List Temp) : List Transfer → Annotated
  | [] => []
  | l :: ls =>
    annotate before (l.offset :: before) (loadSlot fp l.slot l.offset l.value) ++
      annotatedLoads fp (l.value :: before) ls

/-- The values after loads. -/
def held (before : List Temp) : List Transfer → List Temp
  | [] => before
  | l :: ls => held (l.value :: before) ls

/-- The store, with the value to be stored. -/
def annotatedStore (fp : Temp) : Option Transfer → Annotated
  | none => []
  | some s => annotate [s.value] [s.offset, s.value] (storeSlot fp s.slot s.offset s.value)

/-- The instructions of a block with the temporaries from spills that may be live. -/
def annotated (fp : Temp) (b : Block) : Annotated :=
  annotatedLoads fp [] b.loads ++ (b.core, held [] b.loads) :: annotatedStore fp b.store

/-- What a load writes meets the values that were loaded before. -/
def loadPairs (before : List Temp) : List Transfer → List (Temp × Temp)
  | [] => []
  | l :: ls =>
    before.flatMap (fun y => [(l.offset, y), (l.value, y)]) ++ loadPairs (l.value :: before) ls

/-- The temporaries of a block that may interfere. -/
def pairs (b : Block) : List (Temp × Temp) :=
  loadPairs [] b.loads ++ b.store.toList.map fun s => (s.offset, s.value)

/-- At most two temporaries are loaded or may still have to be, and what is loaded is read; what is
stored is all that is written. -/
structure Shaped (fp : Temp) (old : TempSet) (b : Block) : Prop where
  uses : ∃ zs : List Temp, b.loads.length + zs.length ≤ 2 ∧ (∀ z ∈ zs, z ∈ old) ∧
    ∀ u ∈ b.core.uses, u = fp ∨ u ∈ b.loads.map (·.value) ∨ u ∈ zs
  loaded : ∀ l ∈ b.loads, l.value ∈ b.core.uses
  stored : ∀ s, b.store = some s → s.value ∈ b.core.defs
  defs : ∀ d ∈ b.core.defs, (∀ s, b.store = some s → d = s.value) ∧
    (b.store = none → d ∈ old) ∧ ∀ d' ∈ b.core.defs, d = d'

theorem mem_temps_load {l : Transfer} (h : l ∈ b.loads) : l.offset ∈ b.temps ∧ l.value ∈ b.temps :=
  ⟨List.mem_append_left _ (List.mem_flatMap.mpr ⟨l, h, by simp [Transfer.temps]⟩),
    List.mem_append_left _ (List.mem_flatMap.mpr ⟨l, h, by simp [Transfer.temps]⟩)⟩

theorem mem_temps_store {s : Transfer} (h : b.store = some s) :
    s.offset ∈ b.temps ∧ s.value ∈ b.temps :=
  ⟨List.mem_append_right _ (by simp [h, Transfer.temps]),
    List.mem_append_right _ (by simp [h, Transfer.temps])⟩

theorem map_fst_annotatedLoads (ls : List Transfer) :
    ∀ before : List Temp, (annotatedLoads fp before ls).map Prod.fst =
      ls.flatMap fun l => loadSlot fp l.slot l.offset l.value := by
  induction ls with
  | nil => exact fun _ => rfl
  | cons l ls ih =>
    intro before
    rw [annotatedLoads, List.map_append, map_fst_annotate, ih, List.flatMap_cons]

theorem map_fst_annotated (fp : Temp) (b : Block) : (b.annotated fp).map Prod.fst = b.code fp := by
  rw [annotated, code, List.map_append, map_fst_annotatedLoads, List.map_cons]
  cases b.store with
  | none => rfl
  | some s => simp [annotatedStore, map_fst_annotate]

theorem mem_held {t : Temp} (ls : List Transfer) :
    ∀ {before : List Temp}, t ∈ held before ls ↔ t ∈ before ∨ t ∈ ls.map (·.value) := by
  induction ls with
  | nil => simp [held]
  | cons l ls ih =>
    intro before
    rw [held, ih, List.mem_cons, List.map_cons, List.mem_cons, or_assoc, or_left_comm]

theorem consistent_loads (pair : Temp → Temp → Prop) (fp : Temp) (ls : List Transfer) :
    ∀ before : List Temp, (∀ p ∈ loadPairs before ls, pair p.1 p.2) →
      Consistent pair (annotatedLoads fp before ls) (held before ls) ∧
        entry (annotatedLoads fp before ls) (held before ls) = before := by
  induction ls with
  | nil => exact fun _ _ => ⟨trivial, rfl⟩
  | cons l ls ih =>
    intro before hpairs
    obtain ⟨hcons, hentry⟩ := ih (l.value :: before) fun p hp =>
      hpairs p (List.mem_append_right _ hp)
    have hmem : ∀ y ∈ before, pair l.offset y ∧ pair l.value y := by
      intro y hy
      constructor
      · exact hpairs (l.offset, y)
          (List.mem_append_left _ (List.mem_flatMap.mpr ⟨y, hy, by simp⟩))
      · exact hpairs (l.value, y)
          (List.mem_append_left _ (List.mem_flatMap.mpr ⟨y, hy, by simp⟩))
    have hlast : Flows pair (.oper .loadSum [fp, l.offset] [l.value] [], l.offset :: before)
        (l.value :: before) := by
      refine ⟨fun t ht => ?_, fun x hx y hy hne => ?_⟩
      · rcases List.mem_cons.mp ht with rfl | ht
        · exact Or.inr (by simp [Instr.defs])
        · exact Or.inl (List.mem_cons_of_mem _ ht)
      · obtain rfl : x = l.value := by simpa [Instr.defs] using hx
        exact (hmem y ((List.mem_cons.mp hy).resolve_left (Ne.symm hne))).2
    rw [annotatedLoads, held]
    refine ⟨consistent_append.mpr ⟨?_, hcons⟩, ?_⟩
    · rw [hentry]
      exact consistent_slot (fun y hy => (hmem y hy).1) hlast
    · rw [entry_append]
      exact entry_slot

theorem consistent_store {pair : Temp → Temp → Prop} (store : Option Transfer)
    (hpair : ∀ s, store = some s → pair s.offset s.value) :
    Consistent pair (annotatedStore fp store) [] := by
  cases store with
  | none => trivial
  | some s =>
    refine consistent_slot (fun y hy => ?_) flows_nil
    rw [List.mem_singleton.mp hy]
    exact hpair s rfl

/-- The annotation of a block holds, and nothing is live before it or after it. -/
theorem Shaped.consistent (h : b.Shaped fp old) :
    Consistent (fun x y => (x, y) ∈ b.pairs) (b.annotated fp) [] := by
  obtain ⟨hloads, -⟩ := consistent_loads (fun x y => (x, y) ∈ b.pairs) fp b.loads []
    fun p hp => List.mem_append_left _ hp
  refine consistent_append.mpr ⟨hloads, ?_, consistent_store b.store fun s hs => ?_⟩
  · cases hs : b.store with
    | none => exact flows_nil
    | some s =>
      rw [annotatedStore, storeSlot, entry_slot]
      refine ⟨fun t ht => ?_, fun x hx y hy hne => ?_⟩
      · rw [List.mem_singleton.mp ht]
        exact Or.inr (h.stored s hs)
      · rw [List.mem_singleton.mp hy] at hne
        exact absurd ((h.defs x hx).1 s hs) hne
  · exact List.mem_append_right _ (by simp [hs])

theorem mem_loadPairs (ls : List Transfer) :
    ∀ {before : List Temp}, (x, y) ∈ loadPairs before ls →
      x ∈ ls.flatMap Transfer.temps ∧ (y ∈ before ∨ y ∈ ls.flatMap Transfer.temps) := by
  induction ls with
  | nil => exact fun h => by cases h
  | cons l ls ih =>
    intro before h
    simp only [List.flatMap_cons, List.mem_append, Transfer.temps, List.mem_cons,
      List.not_mem_nil, or_false]
    rcases List.mem_append.mp h with h | h
    · obtain ⟨z, hz, h⟩ := List.mem_flatMap.mp h
      simp only [List.mem_cons, Prod.mk.injEq, List.not_mem_nil, or_false] at h
      rcases h with ⟨rfl, rfl⟩ | ⟨rfl, rfl⟩
      · exact ⟨Or.inl (Or.inl rfl), Or.inl hz⟩
      · exact ⟨Or.inl (Or.inr rfl), Or.inl hz⟩
    · obtain ⟨hx, hy⟩ := ih h
      refine ⟨Or.inr hx, ?_⟩
      rcases hy with hy | hy
      · exact (List.mem_cons.mp hy).elim (fun h => Or.inr (Or.inl (Or.inr h))) Or.inl
      · exact Or.inr (Or.inr hy)

theorem mem_temps_of_mem_pairs (h : (x, y) ∈ b.pairs) : x ∈ b.temps ∧ y ∈ b.temps := by
  rcases List.mem_append.mp h with h | h
  · obtain ⟨hx, hy⟩ := mem_loadPairs b.loads h
    exact ⟨List.mem_append_left _ hx, List.mem_append_left _ (hy.resolve_left (by simp))⟩
  · obtain ⟨s, hs, heq⟩ := List.mem_map.mp h
    cases heq
    exact mem_temps_store (Option.mem_toList.mp hs)

theorem loadPairs_unique {ls : List Transfer} (hlen : ls.length ≤ 2)
    (hnd : (ls.flatMap Transfer.temps).Nodup) {x y u : Temp} (hp : (x, y) ∈ loadPairs [] ls)
    (hu : (x, u) ∈ loadPairs [] ls ∨ (u, x) ∈ loadPairs [] ls) : u = y := by
  match ls, hlen with
  | [], _ | [_], _ => cases hp
  | [l₁, l₂], _ =>
    simp only [loadPairs, List.flatMap_nil, List.nil_append, List.flatMap_cons, List.append_nil,
      List.mem_cons, Prod.mk.injEq, List.not_mem_nil, or_false] at hp hu
    simp only [List.flatMap_cons, List.flatMap_nil, Transfer.temps, List.append_nil,
      List.cons_append, List.nil_append, List.nodup_cons, List.mem_cons, List.not_mem_nil] at hnd
    grind

/-- With two loads at most, the first temporary of a pair is in no other pair. -/
theorem Shaped.pair_unique (h : b.Shaped fp old) (hnd : b.temps.Nodup) {x y u : Temp}
    (hp : (x, y) ∈ b.pairs) (hu : (x, u) ∈ b.pairs ∨ (u, x) ∈ b.pairs) : u = y := by
  obtain ⟨zs, hlen, -, -⟩ := h.uses
  obtain ⟨hloads, hstore, hdisj⟩ := List.nodup_append.mp hnd
  -- the pair of the store has no temporary of a load
  have hapart : ∀ {v w}, v ∈ b.loads.flatMap Transfer.temps → ∀ s ∈ b.store.toList,
      w = s.offset ∨ w = s.value → v ≠ w := by
    rintro v w hv s hs hw rfl
    refine hdisj v hv v (List.mem_flatMap.mpr ⟨s, hs, ?_⟩) rfl
    simpa [Transfer.temps] using hw
  simp only [pairs, List.mem_append, List.mem_map, Prod.mk.injEq] at hp hu
  rcases hp with hp | ⟨s, hs, rfl, rfl⟩
  · have hx := (mem_loadPairs b.loads hp).1
    refine loadPairs_unique (Nat.le_trans (Nat.le_add_right _ _) hlen) hloads hp ?_
    rcases hu with (hu | ⟨s, hs, rfl, -⟩) | (hu | ⟨s, hs, -, rfl⟩)
    · exact Or.inl hu
    · exact absurd rfl (hapart hx s hs (Or.inl rfl))
    · exact Or.inr hu
    · exact absurd rfl (hapart hx s hs (Or.inr rfl))
  · rcases hu with (hu | ⟨s', hs', -, rfl⟩) | (hu | ⟨s', hs', -, heq⟩)
    · exact absurd rfl (hapart (mem_loadPairs b.loads hu).1 s hs (Or.inl rfl))
    · rw [Option.mem_unique (Option.mem_toList.mp hs') (Option.mem_toList.mp hs)]
    · exact absurd rfl
        (hapart ((mem_loadPairs b.loads hu).2.resolve_left (by simp)) s hs (Or.inl rfl))
    · -- the offset of a store is not its value
      have hone : s' = s := Option.mem_unique (Option.mem_toList.mp hs') (Option.mem_toList.mp hs)
      rw [Option.mem_toList.mp hs] at hstore
      simp [Transfer.temps, hone ▸ heq] at hstore

theorem entry_annotated (fp : Temp) (b : Block) (after : List Temp) :
    entry (b.annotated fp) after = [] := by
  obtain ⟨-, hentry⟩ := consistent_loads (fun _ _ => True) fp b.loads [] fun _ _ => trivial
  rw [annotated, entry_append]
  exact hentry

/-- What is read may be live, unless it is the frame pointer or was there before all spills;
before a label nothing is live. -/
def Covered (fp : Temp) (old : TempSet) (e : Instr × List Temp) : Prop :=
  (∀ u ∈ e.1.uses, u = fp ∨ u ∈ old ∨ u ∈ e.2) ∧ ∀ l, e.1 = .label l → e.2 = []

theorem covered_slot {op : Op} {us ds : List Temp} (hoffset : offset ∈ rest)
    (hus : ∀ u ∈ us, u = fp ∨ u ∈ rest) {e : Instr × List Temp}
    (h : e ∈ annotate first rest (loadConstant offset slot ++ [.oper op us ds []])) :
    Covered fp old e := by
  have hmem : e.1 ∈ loadConstant offset slot ++ [.oper op us ds []] := by
    have hmap := List.mem_map_of_mem (f := Prod.fst) h
    rwa [map_fst_annotate] at hmap
  refine ⟨fun u hu => ?_, fun l hl => ?_⟩
  · rcases uses_slot h with (⟨-, hnone⟩ | ⟨hrest, huses⟩) | rfl
    · rw [hnone] at hu
      cases hu
    · exact Or.inr (Or.inr (by rw [hrest, huses u hu]; exact hoffset))
    · exact (hus u hu).imp_right Or.inr
  · -- none of the instructions is a label
    rw [hl] at hmem
    rcases List.mem_append.mp hmem with hmem | hmem
    · have hdefs := (mem_loadConstant hmem).2.1
      cases hdefs
    · cases List.mem_singleton.mp hmem

theorem covered_loads (ls : List Transfer) :
    ∀ {before : List Temp}, ∀ e ∈ annotatedLoads fp before ls, Covered fp old e := by
  induction ls with
  | nil => exact fun e he => by cases he
  | cons l ls ih =>
    intro before e he
    rcases List.mem_append.mp he with he | he
    · exact covered_slot List.mem_cons_self
        (fun u hu => by simpa [Instr.uses] using Or.imp_right Or.inl (by simpa using hu)) he
    · exact ih e he

theorem Shaped.covered (h : b.Shaped fp old) : ∀ e ∈ b.annotated fp, Covered fp old e := by
  intro e he
  rcases List.mem_append.mp he with he | he
  · exact covered_loads b.loads e he
  · rcases List.mem_cons.mp he with rfl | he
    · refine ⟨fun u hu => ?_, fun l hl => ?_⟩
      · obtain ⟨zs, -, hold, huses⟩ := h.uses
        rcases huses u hu with hu | hu | hu
        · exact Or.inl hu
        · exact Or.inr (Or.inr ((mem_held b.loads).mpr (Or.inr hu)))
        · exact Or.inr (Or.inl (hold u hu))
      · cases hloads : b.loads with
        | nil => rfl
        | cons t ls =>
          have hread := h.loaded t (by rw [hloads]; exact List.mem_cons_self)
          have hcore : b.core = .label l := hl
          rw [hcore] at hread
          cases hread
    · cases hs : b.store with
      | none =>
        rw [hs] at he
        cases he
      | some s =>
        rw [hs] at he
        refine covered_slot List.mem_cons_self (fun u hu => ?_) he
        simp only [List.mem_cons, List.not_mem_nil, or_false] at hu ⊢
        rcases hu with h | h | h
        · exact Or.inr (Or.inr h)
        · exact Or.inl h
        · exact Or.inr (Or.inl h)

end Block

/-! ## Blocks in order -/

section Blocks

open Annotated

variable {fp : Temp} {old : TempSet} {bs : List Block}

theorem entry_flatMap_annotated (bs : List Block) :
    entry (bs.flatMap (Block.annotated fp)) [] = [] := by
  cases bs with
  | nil => rfl
  | cons b bs => rw [List.flatMap_cons, entry_append, Block.entry_annotated]

theorem consistent_blocks (h : ∀ b ∈ bs, b.Shaped fp old) :
    Consistent (fun x y => ∃ b ∈ bs, (x, y) ∈ b.pairs) (bs.flatMap (Block.annotated fp)) [] := by
  induction bs with
  | nil => trivial
  | cons b bs ih =>
    rw [List.flatMap_cons, consistent_append, entry_flatMap_annotated]
    constructor
    · exact (h b List.mem_cons_self).consistent.mono fun x y hp => ⟨b, List.mem_cons_self, hp⟩
    · refine (ih fun b' hb' => h b' (List.mem_cons_of_mem _ hb')).mono ?_
      rintro x y ⟨b', hb', hp⟩
      exact ⟨b', List.mem_cons_of_mem _ hb', hp⟩

theorem covered_blocks (h : ∀ b ∈ bs, b.Shaped fp old) :
    ∀ e ∈ bs.flatMap (Block.annotated fp), Block.Covered fp old e := by
  intro e he
  obtain ⟨b, hb, he⟩ := List.mem_flatMap.mp he
  exact (h b hb).covered e he

theorem map_fst_flatMap_annotated (fp : Temp) (bs : List Block) :
    (bs.flatMap (Block.annotated fp)).map Prod.fst = bs.flatMap (Block.code fp) := by
  rw [List.map_flatMap]
  exact congrArg List.flatten (List.map_congr_left fun b _ => Block.map_fst_annotated fp b)

end Blocks

/-! ## Interference of temporaries from spills -/

/-- Code in blocks: `repair` holds the temporaries that spills brought in, each in one place, and
`old` those that were there before. -/
structure Code.Repaired (c : Code) (n : Names) (old repair : TempSet) (bs : List Block) : Prop where
  code : c.instrs = bs.flatMap (Block.code c.frame.fp)
  shaped : ∀ b ∈ bs, b.Shaped c.frame.fp old
  nodup : (bs.flatMap Block.temps).Nodup
  mem_repair : ∀ t, t ∈ repair ↔ t ∈ bs.flatMap Block.temps
  new : ∀ t ∈ repair, t ∉ old
  mentions : ∀ t, c.Mentions t → t ∈ old ∨ t ∈ repair
  handed : ∀ t, t ∈ old ∨ t ∈ repair → n.HasTemp t
  fp : c.frame.fp ∈ old
  rv : c.frame.rv ∈ old

namespace Code.Repaired

open Annotated

variable {c : Code} {n : Names} {old repair : TempSet} {bs : List Block}

theorem getElem?_annotated (h : c.Repaired n old repair bs) {i : Nat} {instr : Instr}
    (hi : c.instrs[i]? = some instr) :
    ∃ live, (bs.flatMap (Block.annotated c.frame.fp))[i]? = some (instr, live) := by
  rw [h.code, ← map_fst_flatMap_annotated, List.getElem?_map] at hi
  obtain ⟨⟨instr', live⟩, he, rfl⟩ := Option.map_eq_some_iff.mp hi
  exact ⟨live, he⟩

/-- The annotation solves the equations of liveness as far as temporaries from spills go. -/
theorem closed (h : c.Repaired n old repair bs) :
    c.flow.Closed
      (fun i t => t ∈ repair → t ∈ liveAt (bs.flatMap (Block.annotated c.frame.fp)) i)
      (fun i t => t ∈ repair → t ∈ liveAt (bs.flatMap (Block.annotated c.frame.fp)) (i + 1)) where
  flows i p hp t ht hrepair := by
    cases hi : c.instrs[i]? with
    | none =>
      rw [flow_successors_of_le (List.getElem?_eq_none_iff.mp hi)] at hp
      cases hp
    | some instr =>
      rw [flow_successors hi, successorsAt] at hp
      split at hp
      · split at hp
        · obtain rfl := List.mem_singleton.mp hp
          exact ht hrepair
        · cases hp
      · -- a jump goes to the exit or to a label
        obtain ⟨l, -, hl⟩ := List.mem_filterMap.mp hp
        cases p with
        | exit =>
          obtain ⟨rfl, -⟩ := mem_liveAtExit.mp ht
          exact absurd h.rv (h.new _ hrepair)
        | instr j =>
          obtain ⟨live, he⟩ := h.getElem?_annotated (label_of_target? hl)
          obtain rfl : live = [] :=
            (covered_blocks h.shaped _ (List.mem_of_getElem? he)).2 l rfl
          have hlive := ht hrepair
          rw [liveAt, he] at hlive
          cases hlive
  uses i instr hi t ht hrepair := by
    rw [flow_instrs] at hi
    obtain ⟨live, he⟩ := h.getElem?_annotated hi
    rw [liveAt, he]
    rcases (covered_blocks h.shaped _ (List.mem_of_getElem? he)).1 t ht with rfl | hold | hlive
    · exact absurd h.fp (h.new _ hrepair)
    · exact absurd hold (h.new _ hrepair)
    · exact hlive
  through i instr hi t ht hdefs hrepair := by
    rw [flow_instrs] at hi
    obtain ⟨live, he⟩ := h.getElem?_annotated hi
    rw [liveAt, he]
    exact (((consistent_blocks h.shaped).flows he).live t (ht hrepair)).resolve_right hdefs

/-- Temporaries from spills interfere inside a block only. -/
theorem pair_of_clash (h : c.Repaired n old repair bs) (hy : y ∈ repair) (hne : x ≠ y)
    (hclash : c.Clash c.liveness x y) : ∃ b ∈ bs, (x, y) ∈ b.pairs := by
  obtain ⟨i, instr, hi, hx, hlive⟩ := hclash
  obtain ⟨live, he⟩ := h.getElem?_annotated hi
  exact ((consistent_blocks h.shaped).flows he).pairs x hx y
    ((liveness_below h.closed i y).2 hlive hy) hne

theorem eq_of_mem_temps (h : c.Repaired n old repair bs) {b b' : Block} (hb : b ∈ bs)
    (hb' : b' ∈ bs) {t : Temp} (ht : t ∈ b.temps) (ht' : t ∈ b'.temps) : b = b' := by
  by_contra hne
  have hsymm : Std.Symm (Function.onFun List.Disjoint Block.temps) :=
    ⟨fun _ _ hdisj _ ht ht' => hdisj ht' ht⟩
  exact (List.nodup_flatMap.mp h.nodup).2.forall hb hb' hne ht ht'

/-- Temporaries from spills that interfere form a pair of one block. -/
theorem pair_of_mem_neighbours (h : c.Repaired n old repair bs) {t u : Temp} (ht : t ∈ repair)
    (hu : u ∈ repair) (hnb : u ∈ (c.interference c.liveness).neighbours t) :
    ∃ b ∈ bs, (t, u) ∈ b.pairs ∨ (u, t) ∈ b.pairs := by
  obtain ⟨hne, -, -, -, -, hclash | hclash⟩ := mem_neighbours_interference.mp hnb
  · obtain ⟨b, hb, hp⟩ := h.pair_of_clash hu hne hclash
    exact ⟨b, hb, Or.inl hp⟩
  · obtain ⟨b, hb, hp⟩ := h.pair_of_clash ht hne.symm hclash
    exact ⟨b, hb, Or.inr hp⟩

/-- The first temporary of a pair interferes with at most one that comes from a spill. -/
theorem degreeIn_le_one_of_pair (h : c.Repaired n old repair bs) {b : Block} (hb : b ∈ bs)
    (hx : x ∈ repair) (hp : (x, y) ∈ b.pairs) {among : Temp → Bool}
    (hamong : ∀ u, among u = true → u ∈ repair) :
    (c.interference c.liveness).degreeIn among x ≤ 1 := by
  have hsub : ((c.interference c.liveness).neighbours x).toList.filter among ⊆ [y] := by
    intro u hu
    obtain ⟨hnb, hin⟩ := List.mem_filter.mp hu
    obtain ⟨b', hb', hp'⟩ :=
      h.pair_of_mem_neighbours hx (hamong u hin) (Std.ExtTreeSet.mem_toList.mp hnb)
    have hmem : x ∈ b'.temps := hp'.elim (fun hp => (Block.mem_temps_of_mem_pairs hp).1)
      fun hp => (Block.mem_temps_of_mem_pairs hp).2
    obtain rfl := h.eq_of_mem_temps hb hb' (Block.mem_temps_of_mem_pairs hp).1 hmem
    rw [List.mem_singleton]
    exact (h.shaped b hb).pair_unique ((List.nodup_flatMap.mp h.nodup).1 b hb) hp hp'
  exact (((TempSet.toList_nodup _).filter among).subperm hsub).length_le

/-- Among temporaries from spills there is one that interferes with at most one of the others. -/
theorem exists_degreeIn_le_one (h : c.Repaired n old repair bs) {ts : List Temp}
    (hts : ∀ t ∈ ts, t ∈ repair) (hne : ts ≠ []) :
    ∃ t ∈ ts, (c.interference c.liveness).degreeIn ts.contains t ≤ 1 := by
  have hamong : ∀ u, ts.contains u = true → u ∈ repair := fun u hu =>
    hts u (List.contains_iff_mem.mp hu)
  obtain ⟨t, ht⟩ := List.exists_mem_of_ne_nil ts hne
  by_cases hnb : ∃ u ∈ ts, u ∈ (c.interference c.liveness).neighbours t
  · obtain ⟨u, hu, hnb⟩ := hnb
    obtain ⟨b, hb, hp | hp⟩ := h.pair_of_mem_neighbours (hts t ht) (hts u hu) hnb
    · exact ⟨t, ht, h.degreeIn_le_one_of_pair hb (hts t ht) hp hamong⟩
    · exact ⟨u, hu, h.degreeIn_le_one_of_pair hb (hts u hu) hp hamong⟩
  · refine ⟨t, ht, ?_⟩
    rw [Interference.degreeIn, List.filter_eq_nil_iff.mpr]
    · exact Nat.zero_le 1
    · intro u hu hin
      exact hnb ⟨u, List.contains_iff_mem.mp hin, Std.ExtTreeSet.mem_toList.mp hu⟩

end Code.Repaired

end MmixBackend
