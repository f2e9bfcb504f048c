import Mathlib.Data.List.Dedup
import Mathlib.Data.List.Perm.Subperm
import MmixBackend.Proofs.Allocation
import MmixBackend.Proofs.Repair

/-!
# Allocation settles

A spill turns blocks into blocks, so that code in blocks stays so from round to round.  As the
temporaries from spills interfere too little to be spilled themselves, each round but the last
spills temporaries of the code at the start, and never one twice: the rounds are fewer than these
temporaries.  What may still fail is the arithmetic of slots, and the spill area may be full.
-/

namespace MmixBackend

/-! ## Spilling in a block -/

namespace Block

variable {s : Spill} {old : TempSet} {b : Block} {n : Nat}

/-- A block in which a temporary is spilled, with so many handed out. -/
def spill (s : Spill) (n : Nat) (b : Block) : Block where
  loads := b.loads ++ if s.temp ∈ b.core.uses then [⟨⟨n⟩, ⟨n + 1⟩, s.offset⟩] else []
  core := b.core.replace s.temp (s.reads b.core n).2.1
    (s.writes b.core (n + (s.reads b.core n).2.2.length)).2.1
  store :=
    if s.temp ∈ b.core.defs then
      some ⟨⟨n + (s.reads b.core n).2.2.length + 1⟩, ⟨n + (s.reads b.core n).2.2.length⟩, s.offset⟩
    else b.store

variable (h : b.Shaped s.fp old) (hnew : ∀ t ∈ b.temps, t ∉ old) (ht : s.temp ∈ old)
  (hfp : s.temp ≠ s.fp)

include h hnew ht

/-- A temporary that was there before all spills is not stored by the block yet. -/
theorem Shaped.store_eq_none (hd : s.temp ∈ b.core.defs) : b.store = none := by
  cases hs : b.store with
  | none => rfl
  | some x =>
    have heq := (h.defs _ hd).1 x hs
    exact absurd (heq ▸ ht) (hnew _ (mem_temps_store hs).2)

/-- The block has the new temporaries besides those it had. -/
theorem temps_spill (n : Nat) : (b.spill s n).temps.Perm (b.temps ++ s.new b.core n) := by
  by_cases hu : s.temp ∈ b.core.uses <;> by_cases hd : s.temp ∈ b.core.defs
  · simpa [temps, spill, Transfer.temps, Spill.new, Spill.reads, Spill.writes, hu, hd,
      h.store_eq_none hnew ht hd] using
      List.Perm.append_left _ (((List.Perm.swap _ _ []).cons _).cons _)
  · simpa [temps, spill, Transfer.temps, Spill.new, Spill.reads, Spill.writes, hu, hd] using
      List.Perm.append_left _ (@List.perm_append_comm _ [Temp.mk n, Temp.mk (n + 1)] _)
  · simpa [temps, spill, Transfer.temps, Spill.new, Spill.reads, Spill.writes, hu, hd,
      h.store_eq_none hnew ht hd] using List.Perm.append_left _ (List.Perm.swap _ _ [])
  · simp [temps, spill, Spill.new, Spill.reads, Spill.writes, hu, hd]

include hfp

/-- Only the instruction of a block mentions a temporary that was there before all spills. -/
theorem codes_code (n : Nat) :
    s.codes (b.code s.fp) n = (b.spill s n).code s.fp ∧
      s.news (b.code s.fp) n = s.new b.core n := by
  have hne : ∀ u ∈ b.temps, s.temp ≠ u := fun u hu heq => hnew u hu (heq ▸ ht)
  have hloads : ∀ i ∈ b.loads.flatMap (fun l => loadSlot s.fp l.slot l.offset l.value),
      s.temp ∉ i.uses ∧ s.temp ∉ i.defs := by
    intro i hi
    obtain ⟨l, hl, hi⟩ := List.mem_flatMap.mp hi
    obtain ⟨hu, hd⟩ := mem_loadSlot hi
    obtain ⟨hoffset, hvalue⟩ := mem_temps_load hl
    exact ⟨fun h => (hu _ h).elim hfp (hne _ hoffset),
      fun h => (hd _ h).elim (hne _ hoffset) (hne _ hvalue)⟩
  have hstore : ∀ i ∈ b.store.toList.flatMap (fun x => storeSlot s.fp x.slot x.offset x.value),
      s.temp ∉ i.uses ∧ s.temp ∉ i.defs := by
    intro i hi
    obtain ⟨x, hx, hi⟩ := List.mem_flatMap.mp hi
    obtain ⟨hu, hd⟩ := mem_storeSlot hi
    obtain ⟨hoffset, hvalue⟩ := mem_temps_store (Option.mem_toList.mp hx)
    exact ⟨fun h => (hu _ h).elim (hne _ hvalue) fun h => h.elim hfp (hne _ hoffset),
      fun h => hne _ hoffset (hd _ h)⟩
  obtain ⟨hcl, hnl⟩ := Spill.codes_of_notMem hloads n
  obtain ⟨hcs, hns⟩ := Spill.codes_of_notMem hstore (n + (s.new b.core n).length)
  rw [code, Spill.codes_append, Spill.news_append, hcl, hnl]
  simp only [List.length_nil, Nat.add_zero, Spill.codes, Spill.news, hcs, hns, List.append_nil,
    List.nil_append, and_true]
  rw [code, Spill.code, spill]
  by_cases hu : s.temp ∈ b.core.uses <;> by_cases hd : s.temp ∈ b.core.defs
  · simp [Spill.reads, Spill.writes, hu, hd, h.store_eq_none hnew ht hd]
  · simp [Spill.reads, Spill.writes, hu, hd]
  · simp [Spill.reads, Spill.writes, hu, hd, h.store_eq_none hnew ht hd]
  · simp [Spill.reads, Spill.writes, hu, hd]

/-- A load takes the place of the temporary among those that may still have to be loaded. -/
theorem Shaped.uses_spill :
    ∃ zs : List Temp, (b.spill s n).loads.length + zs.length ≤ 2 ∧ (∀ z ∈ zs, z ∈ old) ∧
      ∀ u ∈ (b.spill s n).core.uses,
        u = s.fp ∨ u ∈ (b.spill s n).loads.map (·.value) ∨ u ∈ zs := by
  obtain ⟨zs, hlen, hold, huses⟩ := h.uses
  by_cases hu : s.temp ∈ b.core.uses
  · have hz : s.temp ∈ zs := by
      rcases huses _ hu with h' | h' | h'
      · exact absurd h' hfp
      · obtain ⟨l, hl, heq⟩ := List.mem_map.mp h'
        exact absurd (heq ▸ ht) (hnew _ (mem_temps_load hl).2)
      · exact h'
    refine ⟨zs.erase s.temp, ?_, fun z hz => hold z (List.mem_of_mem_erase hz), fun u hmem => ?_⟩
    · have hpos := List.length_pos_of_mem hz
      rw [List.length_erase_of_mem hz, spill, if_pos hu, List.length_append, List.length_singleton]
      omega
    · rw [spill, if_pos hu, List.map_append, List.mem_append]
      rcases Instr.mem_uses_replace.mp hmem with ⟨rfl, -⟩ | ⟨hmem, hne⟩
      · refine Or.inr (Or.inl (Or.inr ?_))
        simp [Spill.reads, hu]
      · rcases huses u hmem with h' | h' | h'
        · exact Or.inl h'
        · exact Or.inr (Or.inl (Or.inl h'))
        · exact Or.inr (Or.inr ((List.mem_erase_of_ne hne).mpr h'))
  · have hloads : (b.spill s n).loads = b.loads := by simp [spill, hu]
    rw [hloads]
    refine ⟨zs, hlen, hold, fun u hmem => ?_⟩
    rcases Instr.mem_uses_replace.mp hmem with ⟨-, h'⟩ | ⟨hmem, -⟩
    · exact absurd h' hu
    · exact huses u hmem

theorem Shaped.spill : (b.spill s n).Shaped s.fp old := by
  have hne : ∀ u ∈ b.temps, u ≠ s.temp := fun u hu heq => hnew u hu (heq ▸ ht)
  refine ⟨h.uses_spill hnew ht hfp, fun l hl => ?_, fun x hx => ?_, fun d hd => ?_⟩
  · refine Instr.mem_uses_replace.mpr ?_
    rcases List.mem_append.mp hl with hl | hl
    · exact Or.inr ⟨h.loaded l hl, hne _ (mem_temps_load hl).2⟩
    · by_cases hu : s.temp ∈ b.core.uses
      · rw [if_pos hu, List.mem_singleton] at hl
        refine Or.inl ⟨?_, hu⟩
        simp [hl, Spill.reads, hu]
      · rw [if_neg hu] at hl
        cases hl
  · refine Instr.mem_defs_replace.mpr ?_
    by_cases hd : s.temp ∈ b.core.defs
    · rw [Block.spill, if_pos hd] at hx
      cases hx
      refine Or.inl ⟨?_, hd⟩
      simp [Spill.writes, hd]
    · have hstore : b.store = some x := by
        rw [← hx, Block.spill, if_neg hd]
      exact Or.inr ⟨h.stored x hstore, hne _ (mem_temps_store hstore).2⟩
  · by_cases hold : s.temp ∈ b.core.defs
    · -- the temporary is all that was written
      have hwritten : ∀ d ∈ (b.spill s n).core.defs,
          d = ⟨n + (s.reads b.core n).2.2.length⟩ := by
        intro d hd
        rcases Instr.mem_defs_replace.mp hd with ⟨rfl, -⟩ | ⟨hd, hne⟩
        · simp [Spill.writes, hold]
        · exact absurd ((h.defs d hd).2.2 _ hold) hne
      refine ⟨fun x hx => ?_, fun hx => ?_,
        fun d' hd' => (hwritten d hd).trans (hwritten d' hd').symm⟩
      · rw [Block.spill, if_pos hold] at hx
        cases hx
        exact hwritten d hd
      · rw [Block.spill, if_pos hold] at hx
        cases hx
    · have hdefs : ∀ d ∈ (b.spill s n).core.defs, d ∈ b.core.defs := by
        intro d hd
        rcases Instr.mem_defs_replace.mp hd with ⟨-, hd⟩ | ⟨hd, -⟩
        · exact absurd hd hold
        · exact hd
      have hstore : (b.spill s n).store = b.store := if_neg hold
      rw [hstore]
      obtain ⟨hsome, hnone, heq⟩ := h.defs d (hdefs d hd)
      exact ⟨hsome, hnone, fun d' hd' => heq d' (hdefs d' hd')⟩

end Block

/-! ## Spilling in blocks -/

/-- Blocks in order in which a temporary is spilled, with so many handed out. -/
def spillBlocks (s : Spill) : Nat → List Block → List Block
  | _, [] => []
  | n, b :: bs => b.spill s n :: spillBlocks s (n + (s.new b.core n).length) bs

section Blocks

variable {s : Spill} {old : TempSet} {bs : List Block} (h : ∀ b ∈ bs, b.Shaped s.fp old)
  (hnew : ∀ b ∈ bs, ∀ t ∈ b.temps, t ∉ old) (ht : s.temp ∈ old) (hfp : s.temp ≠ s.fp)

include h hnew ht hfp

theorem shaped_spillBlocks : ∀ {n : Nat}, ∀ b ∈ spillBlocks s n bs, b.Shaped s.fp old := by
  induction bs with
  | nil => exact fun b hb => by cases hb
  | cons b bs ih =>
    intro n b' hb'
    rcases List.mem_cons.mp hb' with rfl | hb'
    · exact (h b List.mem_cons_self).spill (hnew b List.mem_cons_self) ht hfp
    · exact ih (fun b hb => h b (List.mem_cons_of_mem _ hb))
        (fun b hb => hnew b (List.mem_cons_of_mem _ hb)) b' hb'

/-- Spilling in code in blocks gives code in blocks, which have the new temporaries besides those
they had. -/
theorem codes_blocks :
    ∀ n : Nat,
      s.codes (bs.flatMap (Block.code s.fp)) n = (spillBlocks s n bs).flatMap (Block.code s.fp) ∧
        ((spillBlocks s n bs).flatMap Block.temps).Perm
          (bs.flatMap Block.temps ++ s.news (bs.flatMap (Block.code s.fp)) n) := by
  induction bs with
  | nil => exact fun n => ⟨rfl, List.Perm.refl _⟩
  | cons b bs ih =>
    intro n
    have hb := h b List.mem_cons_self
    have hbnew := hnew b List.mem_cons_self
    obtain ⟨hcode, hnews⟩ := Block.codes_code hb hbnew ht hfp n
    obtain ⟨hcodes, hperm⟩ := ih (fun b hb => h b (List.mem_cons_of_mem _ hb))
      (fun b hb => hnew b (List.mem_cons_of_mem _ hb)) (n + (s.new b.core n).length)
    rw [List.flatMap_cons, Spill.codes_append, Spill.news_append, hnews, hcode, hcodes,
      spillBlocks, List.flatMap_cons, List.flatMap_cons, List.flatMap_cons]
    refine ⟨rfl, ((Block.temps_spill hb hbnew ht n).append hperm).trans ?_⟩
    rw [List.append_assoc, List.append_assoc]
    exact List.Perm.append_left _ (List.perm_append_comm_assoc _ _ _)

end Blocks

theorem Interference.degreeIn_cons_le (g : Interference) (t : Temp) (ts : List Temp) (u : Temp) :
    g.degreeIn (t :: ts).contains u ≤ g.degreeIn ts.contains u + 1 := by
  have hsub : (g.neighbours u).toList.filter (t :: ts).contains ⊆
      t :: (g.neighbours u).toList.filter ts.contains := by
    intro v hv
    obtain ⟨hmem, hin⟩ := List.mem_filter.mp hv
    rcases List.mem_cons.mp (List.contains_iff_mem.mp hin) with rfl | hin
    · exact List.mem_cons_self
    · exact List.mem_cons_of_mem _ (List.mem_filter.mpr ⟨hmem, List.contains_iff_mem.mpr hin⟩)
  exact (((TempSet.toList_nodup _).filter _).subperm hsub).length_le

namespace Code

variable {c : Code} {t : Temp} {old repair : TempSet} {bs : List Block} {st : Session}

theorem Repaired.spilled (h : c.Repaired st.names old repair bs) (ht : t ∈ old)
    (hfp : t ≠ c.frame.fp) (offset spillSize : Word) :
    (c.spilled t offset spillSize st.names.temps).Repaired
      (Spill.more st ((c.spillAt t offset).news c.instrs st.names.temps).length).names old
      (((c.spillAt t offset).news c.instrs st.names.temps).foldl (·.insert ·) repair)
      (spillBlocks (c.spillAt t offset) st.names.temps bs) := by
  have hnew : ∀ b ∈ bs, ∀ u ∈ b.temps, u ∉ old := fun b hb u hu =>
    h.new u ((h.mem_repair u).mpr (List.mem_flatMap.mpr ⟨b, hb, hu⟩))
  obtain ⟨hcodes, hperm⟩ :=
    codes_blocks (s := c.spillAt t offset) h.shaped hnew ht hfp st.names.temps
  rw [← h.code] at hcodes hperm
  -- what was handed out before is not new
  have hold : ∀ {u}, st.names.HasTemp u → u ∉ (c.spillAt t offset).news c.instrs st.names.temps :=
    fun hu hmem => absurd hu (Nat.not_lt_of_le (Spill.mem_news c.instrs hmem).1)
  have hrepair : ∀ u, u ∈ ((c.spillAt t offset).news c.instrs st.names.temps).foldl
      (·.insert ·) repair ↔
        u ∈ repair ∨ u ∈ (c.spillAt t offset).news c.instrs st.names.temps := fun u => by
    rw [TempSet.mem_foldl_insert, or_comm]
  refine ⟨hcodes, shaped_spillBlocks h.shaped hnew ht hfp, ?_, fun u => ?_, fun u hu => ?_,
    fun u hu => ?_, fun u hu => ?_, h.fp, h.rv⟩
  · rw [hperm.nodup_iff, List.nodup_append]
    refine ⟨h.nodup, Spill.news_nodup c.instrs _, fun u hu v hv => ?_⟩
    rintro rfl
    exact hold (h.handed u (Or.inr ((h.mem_repair u).mpr hu))) hv
  · rw [hrepair, hperm.mem_iff, List.mem_append, h.mem_repair]
  · rcases (hrepair u).mp hu with hu | hu
    · exact h.new u hu
    · exact fun hmem => hold (h.handed u (Or.inl hmem)) hu
  · rw [hrepair]
    obtain ⟨j, hj, hu | hu⟩ := hu
    · rcases (Spill.mem_codes c.instrs hj).1 u hu with rfl | hu | ⟨⟨i, hi, hu⟩, -⟩
      · exact Or.inl h.fp
      · exact Or.inr (Or.inr hu)
      · exact (h.mentions u ⟨i, hi, Or.inl hu⟩).imp_right Or.inl
    · rcases (Spill.mem_codes c.instrs hj).2 u hu with hu | ⟨⟨i, hi, hu⟩, -⟩
      · exact Or.inr (Or.inr hu)
      · exact (h.mentions u ⟨i, hi, Or.inr hu⟩).imp_right Or.inl
  · rw [hrepair, ← or_assoc] at hu
    rcases hu with hu | hu
    · exact Nat.lt_of_lt_of_le (h.handed u hu) (Nat.le_add_right _ _)
    · exact (Spill.mem_news c.instrs hu).2

/-! ## What a round spills -/

/-- What is left without a colour was set aside as a potential spill. -/
theorem potentialSpill_of_spill {k : Nat} (h : t ∈ (c.colored k repair).2) :
    ∃ r ∈ (c.interference c.liveness).simplify k repair, r.temp = t ∧ r.potentialSpill = true := by
  refine Interference.paint_potential
    (Interference.simplify_ordered (c.interference_simple c.liveness)) (List.nil_append _).symm
    (Interference.Recolors.refl _) (fun u hu => ?_) t h
  rw [color?_interference] at hu
  cases hu

/-- A potential spill does not stem from an earlier spill, and something else that does not is set
aside after it. -/
theorem Repaired.exists_left {k : Nat} (h : c.Repaired st.names old repair bs) (hk : 3 ≤ k)
    {before after : List Interference.Removal} {r : Interference.Removal}
    (hrs : (c.interference c.liveness).simplify k repair = before ++ r :: after)
    (hp : r.potentialSpill = true) :
    r.temp ∉ repair ∧ ∃ u ∈ Interference.temps before, u ∉ repair := by
  have hg := c.interference_simple c.liveness
  have hhigh := (Interference.simplify_ordered hg).high before r after hrs hp
  constructor
  · intro hr
    obtain ⟨u, hu, hle⟩ := h.exists_degreeIn_le_one (fun u hu => (hhigh u hu).2 hr)
      (List.cons_ne_nil _ _)
    have hge := (hhigh u hu).1
    omega
  · by_contra hall
    have hrepair : ∀ u ∈ Interference.temps before, u ∈ repair := by
      intro u hu
      by_contra hnot
      exact hall ⟨u, hu, hnot⟩
    by_cases hnil : Interference.temps before = []
    · -- alone, it interferes with nothing
      have hge := (hhigh r.temp List.mem_cons_self).1
      have hzero := Interference.degreeIn_cons_le (c.interference c.liveness) r.temp [] r.temp
      rw [hnil] at hge
      have hnone : (c.interference c.liveness).degreeIn (List.contains []) r.temp = 0 := by
        simp [Interference.degreeIn]
      omega
    · obtain ⟨u, hu, hle⟩ := h.exists_degreeIn_le_one hrepair hnil
      have hge := (hhigh u (List.mem_cons_of_mem _ hu)).1
      have hcons := Interference.degreeIn_cons_le (c.interference c.liveness) r.temp
        (Interference.temps before) u
      omega

theorem Repaired.notMem_of_spill {k : Nat} (h : c.Repaired st.names old repair bs) (hk : 3 ≤ k)
    (ht : t ∈ (c.colored k repair).2) : t ∉ repair := by
  obtain ⟨r, hr, rfl, hp⟩ := potentialSpill_of_spill ht
  obtain ⟨before, after, hrs⟩ := List.append_of_mem hr
  exact (h.exists_left hk hrs hp).1

/-- A round does not spill all temporaries that do not stem from earlier spills. -/
theorem Repaired.exists_kept {k : Nat} (h : c.Repaired st.names old repair bs) (hk : 3 ≤ k)
    (hne : (c.colored k repair).2 ≠ []) :
    ∃ u ∈ (c.interference c.liveness).vertices, u ∉ repair ∧ u ∉ (c.colored k repair).2 := by
  have hg := c.interference_simple c.liveness
  have hnodup : (Interference.temps ((c.interference c.liveness).simplify k repair)).Nodup :=
    (Interference.simplify_ordered hg).nodup
  obtain ⟨t, ht⟩ := List.exists_mem_of_ne_nil _ hne
  obtain ⟨r, hr, rfl, -⟩ := potentialSpill_of_spill ht
  have hnot := h.notMem_of_spill hk ht
  -- of those that do not stem from earlier spills, the one that is set aside last
  cases hfind : ((c.interference c.liveness).simplify k repair).find?
      fun r => !repair.contains r.temp with
  | none =>
    have hall := List.find?_eq_none.mp hfind r hr
    simp [hnot] at hall
  | some last =>
    obtain ⟨hlast, before, after, hrs, hbefore⟩ := List.find?_eq_some_iff_append.mp hfind
    have hmem : last ∈ (c.interference c.liveness).simplify k repair := by
      rw [hrs]
      simp
    refine ⟨last.temp, (Interference.mem_simplify hg).mp (List.mem_map_of_mem hmem),
      by simpa [← Std.ExtTreeSet.contains_iff_mem] using hlast, fun hspill => ?_⟩
    obtain ⟨r', hr', htemp, hp⟩ := potentialSpill_of_spill hspill
    obtain rfl := List.inj_on_of_nodup_map hnodup hr' hmem htemp
    obtain ⟨-, u, hu, hnot⟩ := h.exists_left hk hrs hp
    obtain ⟨r'', hr'', rfl⟩ := List.mem_map.mp hu
    have hin := hbefore r'' hr''
    simp [hnot] at hin

/-! ## Slots -/

/-- So many slots have offsets that are words: the size of the locals can be negated, and the last
slot is not too far below. -/
structure Roomy (c : Code) (slots : Nat) : Prop where
  locals : Int64.minValue.toInt < c.frame.locals.toInt
  offset : Int64.minValue.toInt ≤ -c.frame.locals.toInt - 8 * slots - 16

theorem Roomy.mono {m n : Nat} (h : c.Roomy n) (hle : m ≤ n) : c.Roomy m := by
  refine ⟨h.locals, ?_⟩
  have hoffset := h.offset
  omega

/-- A slot takes eight bytes, and lies below those before it. -/
theorem nextSlot_ok {offset spillSize : Word} (h : c.nextSlot = .ok (offset, spillSize)) :
    spillSize.toInt = c.spillSize.toInt + 8 ∧
      offset.toInt = -c.frame.locals.toInt - spillSize.toInt - 16 := by
  obtain ⟨size, hsize, h⟩ := except_bind_ok.mp h
  obtain ⟨negated, hneg, h⟩ := except_bind_ok.mp h
  obtain ⟨below, hbelow, h⟩ := except_bind_ok.mp h
  obtain ⟨place, hplace, h⟩ := except_bind_ok.mp h
  cases h
  refine ⟨Word.toInt_checkedAdd hsize, ?_⟩
  rw [Word.toInt_checkedSub hplace, Word.toInt_checkedSub hbelow, Word.toInt_checkedNeg hneg]
  rfl

theorem exists_nextSlot {m : Nat} (hsize : c.spillSize.toInt = 8 * m) (hm : m < 131072)
    (hroom : c.Roomy (m + 1)) : ∃ offset spillSize, c.nextSlot = .ok (offset, spillSize) := by
  obtain ⟨hlow, hhigh⟩ := hroom
  have hlocals := Int64.toInt_lt c.frame.locals
  have hmin := Int64.toInt_minValue
  have hmax := Int64.toInt_maxValue
  have height : Word.size.toInt = 8 := by decide
  have hsixteen : (16 : Word).toInt = 16 := by decide
  obtain ⟨size, hadd, hs⟩ := Word.exists_exact .add (c.spillSize.toInt + Word.size.toInt)
    (by omega) (by omega)
  obtain ⟨negated, hneg, hn⟩ := Word.exists_exact .neg (-c.frame.locals.toInt) (by omega) (by omega)
  obtain ⟨below, hsub, hb⟩ := Word.exists_exact .sub (negated.toInt - size.toInt)
    (by omega) (by omega)
  obtain ⟨offset, hoffset, -⟩ := Word.exists_exact .sub (below.toInt - (16 : Word).toInt)
    (by omega) (by omega)
  refine ⟨offset, size, ?_⟩
  rw [nextSlot, Word.checkedAdd_eq, hadd]
  simp only [bind, Except.bind, Word.checkedNeg, hneg, Word.checkedSub_eq, hsub, hoffset]
  rfl

end Code

/-! ## Rounds -/

def Note.spilled? : Note → Option Temp
  | .spilled _ t _ => some t
  | _ => none

namespace Code

/-- The temporaries that instructions mention. -/
def mentioned (c : Code) : TempSet :=
  Std.ExtTreeSet.ofList (c.instrs.flatMap fun i => i.uses ++ i.defs)

/-- What was spilled between two sessions, the last one first: temporaries of the code, each of them
once. -/
structure Spilled (c : Code) (st st' : Session) (ts : List Temp) : Prop where
  notes : ∃ notes, st'.notes = notes ++ st.notes ∧ notes.filterMap Note.spilled? = ts
  nodup : ts.Nodup
  temps : ∀ t ∈ ts, t ∈ c.temps ∧ t ≠ c.frame.fp

/-- Where allocation has got to: the code `c'` comes from `c` by spills. -/
structure Midway (c : Code) (st : Session) (c' : Code) (st' : Session) (repair : TempSet)
    (ts : List Temp) : Prop extends c.Spilled st st' ts where
  tidy : c'.Tidy st'.names
  blocks : ∃ bs, c'.Repaired st'.names c.temps repair bs
  frame : c'.frame = c.frame
  slots : ∀ t, t ∈ c'.slots ↔ t ∈ ts
  size : c'.spillSize.toInt = 8 * ts.length

section Rounds

variable {c c' : Code} {t : Temp} {ts us : List Temp} {st st' : Session} {repair : TempSet}
  {k limit remaining round : Nat}

theorem mem_mentioned : t ∈ c.mentioned ↔ c.Mentions t := by
  rw [mentioned, Std.ExtTreeSet.mem_ofList, List.contains_iff_mem]
  simp [Mentions]

/-- Fewer temporaries are spilled than there are. -/
theorem Spilled.length_lt (h : c.Spilled st st' ts) : ts.length < c.temps.size := by
  have hnodup : (c.frame.fp :: ts).Nodup :=
    List.nodup_cons.mpr ⟨fun hmem => (h.temps _ hmem).2 rfl, h.nodup⟩
  have hsub : c.frame.fp :: ts ⊆ c.temps.toList := by
    intro u hu
    rw [Std.ExtTreeSet.mem_toList]
    rcases List.mem_cons.mp hu with rfl | hu
    · exact mem_temps.mpr (Or.inr (Or.inl rfl))
    · exact (h.temps u hu).1
  have hle := (hnodup.subperm hsub).length_le
  rwa [List.length_cons, Std.ExtTreeSet.length_toList] at hle

/-- If one more could be spilled, no more are spilled than are mentioned. -/
theorem length_le_mentioned (hnodup : (t :: ts).Nodup)
    (hmem : ∀ u ∈ t :: ts, u ∈ c.temps ∧ u ≠ c.frame.fp) : ts.length ≤ c.mentioned.size := by
  have hsub : t :: ts ⊆ c.frame.rv :: c.mentioned.toList := by
    intro u hu
    obtain ⟨htemp, hfp⟩ := hmem u hu
    rcases mem_temps.mp htemp with h | h | h
    · exact List.mem_cons_of_mem _ (Std.ExtTreeSet.mem_toList.mpr (mem_mentioned.mpr h))
    · exact absurd h hfp
    · exact List.mem_cons.mpr (Or.inl h)
  have hle := (hnodup.subperm hsub).length_le
  rw [List.length_cons, List.length_cons, Std.ExtTreeSet.length_toList] at hle
  exact Nat.le_of_succ_le_succ hle

/-- Notes about other things leave allocation where it is. -/
theorem Midway.noted (h : c.Midway st c' st' repair ts) :
    c.Midway st c' (c'.noted k round repair st') repair ts := by
  obtain ⟨notes, hnotes, hts⟩ := h.notes
  refine ⟨⟨⟨.colored c'.name (round + 1) (c'.colored k repair).1.size
    (c'.colored k repair).2.length :: .settled c'.name c'.liveness.passes :: notes, ?_, hts⟩,
    h.nodup, h.temps⟩, h.tidy, h.blocks, h.frame, h.slots, h.size⟩
  simp only [hnotes, List.cons_append]

theorem Midway.spilled (h : c.Midway st c' st' repair ts) (ht : t ∈ c.temps ∧ t ≠ c.frame.fp)
    (hnew : t ∉ ts) {offset spillSize : Word} (hslot : c'.nextSlot = .ok (offset, spillSize)) :
    c.Midway st (c'.spilled t offset spillSize st'.names.temps) (c'.spillNoted t offset st')
      (((c'.spillAt t offset).news c'.instrs st'.names.temps).foldl (·.insert ·) repair)
      (t :: ts) := by
  obtain ⟨notes, hnotes, hts⟩ := h.notes
  obtain ⟨bs, hblocks⟩ := h.blocks
  have hfp : t ≠ c'.frame.fp := by
    rw [h.frame]
    exact ht.2
  refine ⟨⟨⟨.spilled c'.name t offset :: notes, ?_, congrArg (t :: ·) hts⟩,
    List.nodup_cons.mpr ⟨hnew, h.nodup⟩, ?_⟩, ?_, ?_, h.frame, ?_, ?_⟩
  · simp only [hnotes, List.cons_append]
  · intro u hu
    rcases List.mem_cons.mp hu with rfl | hu
    · exact ht
    · exact h.temps u hu
  · exact h.tidy.spilled hfp (hblocks.handed t (Or.inl ht.1)) offset spillSize
  · exact ⟨_, hblocks.spilled ht.1 hfp offset spillSize⟩
  · intro u
    rw [Table.mem_insert, h.slots, List.mem_cons, eq_comm]
  · rw [(nextSlot_ok hslot).1, h.size, List.length_cons]
    omega

/-- Spills in order succeed, or there is no room for a slot. -/
theorem Midway.spillAll :
    ∀ {c' : Code} {repair : TempSet} {ts : List Temp} {st' : Session},
      c.Midway st c' st' repair ts → (∀ u ∈ us, u ∈ c.temps ∧ u ≠ c.frame.fp) →
      (us.reverse ++ ts).Nodup →
      (∃ c₁ repair₁ st₁, c'.spillAll repair us st' = .ok (c₁, repair₁) st₁ ∧
        c.Midway st c₁ st₁ repair₁ (us.reverse ++ ts)) ∨
      ∃ cause st₁ ts₁, c'.spillAll repair us st' = .error (.overflow cause) st₁ ∧
        c.Spilled st st₁ ts₁ ∧
        (c.Roomy (us.length + ts.length) → 131072 < us.length + ts.length) := by
  induction us with
  | nil => exact fun h _ _ => Or.inl ⟨_, _, _, rfl, h⟩
  | cons u us ih =>
    intro c' repair ts st' h hus hnodup
    rw [spillAll_cons]
    cases hslot : c'.nextSlot with
    | error cause =>
      refine Or.inr ⟨cause, st', ts, rfl, h.toSpilled, fun hroom => ?_⟩
      rw [List.length_cons] at hroom ⊢
      by_contra hsmall
      have hroom' : c'.Roomy (ts.length + 1) := by
        have hle : ts.length + 1 ≤ us.length + 1 + ts.length := by omega
        obtain ⟨hlow, hhigh⟩ := hroom.mono hle
        exact ⟨h.frame ▸ hlow, h.frame ▸ hhigh⟩
      obtain ⟨offset, spillSize, hok⟩ := exists_nextSlot h.size (by omega) hroom'
      rw [hok] at hslot
      cases hslot
    | ok slot =>
      obtain ⟨offset, spillSize⟩ := slot
      rw [List.reverse_cons, List.append_assoc, List.singleton_append] at hnodup ⊢
      have hnew : u ∉ ts :=
        (List.nodup_cons.mp (List.nodup_append.mp hnodup).2.1).1
      have hstep := h.spilled (hus u List.mem_cons_self) hnew hslot
      rcases ih hstep (fun v hv => hus v (List.mem_cons_of_mem _ hv)) hnodup with hok | herror
      · exact Or.inl hok
      · obtain ⟨cause, st₁, ts₁, herror, hspilled, hroom⟩ := herror
        refine Or.inr ⟨cause, st₁, ts₁, herror, hspilled, ?_⟩
        rw [List.length_cons] at hroom ⊢
        rwa [Nat.add_right_comm, Nat.add_assoc]

/-- What may be spilled next was there at the start and has not been spilled. -/
theorem Midway.spillable (h : c.Midway st c' st' repair ts) (hne : c.frame.fp ≠ c.frame.rv)
    (ht : t ∈ (c'.interference c'.liveness).vertices) (hnew : t ∉ repair) :
    (t ∈ c.temps ∧ t ≠ c.frame.fp) ∧ t ∉ ts := by
  obtain ⟨bs, hblocks⟩ := h.blocks
  rw [← h.slots, ← h.frame]
  rcases mem_vertices_interference.mp ht with ⟨hfp, hm⟩ | hrv
  · exact ⟨⟨(hblocks.mentions t hm).resolve_right hnew, hfp⟩,
      fun hslot => (h.tidy.slots hslot).2.1 hm⟩
  · obtain ⟨rfl, hslot⟩ := mem_liveAtExit.mp hrv
    refine ⟨⟨hblocks.rv, ?_⟩, hslot⟩
    rw [h.frame]
    exact hne.symm

/-- What may come of an allocation: as many rounds as there are temporaries at most, or a failure
for want of room. -/
def Settles (c : Code) (st : Session) : EStateM.Result Failure Session Allocation → Prop
  | .ok a st' =>
    a.rounds ≤ c.temps.size ∧ ∃ ts, c.Spilled st st' ts ∧ ∀ t, t ∈ a.code.slots ↔ t ∈ ts
  | .error e st' =>
    (∃ ts, c.Spilled st st' ts) ∧ (∀ loc function n, e ≠ .exhausted loc function (.rounds n)) ∧
      (c.Roomy c.mentioned.size → 131072 < c.mentioned.size)

/-- Each round but the last spills something, so that the rounds do not run out. -/
theorem Midway.allocateRounds (hk : 3 ≤ k) (hne : c.frame.fp ≠ c.frame.rv) {remaining : Nat} :
    ∀ {round : Nat} {c' : Code} {repair : TempSet} {ts : List Temp} {st' : Session},
      c.Midway st c' st' repair ts → round ≤ ts.length → c.temps.size ≤ remaining + round →
      c.Settles st (Code.allocateRounds k limit remaining round c' repair st') := by
  induction remaining with
  | zero =>
    intro round c' repair ts st' h hround hleft
    have hlt := h.length_lt
    omega
  | succ remaining ih =>
    intro round c' repair ts st' h hround hleft
    by_cases hs : (c'.colored k repair).2 = []
    · rw [allocateRounds_done hs]
      have hlt := h.length_lt
      exact ⟨by dsimp only; omega, ts, h.noted.toSpilled, h.slots⟩
    · rw [allocateRounds_spill hs]
      obtain ⟨bs, hblocks⟩ := h.blocks
      have hspills : ∀ t ∈ (c'.colored k repair).2,
          (t ∈ c.temps ∧ t ≠ c.frame.fp) ∧ t ∉ ts := fun t ht =>
        h.spillable hne (mem_vertices_of_spill ht) (hblocks.notMem_of_spill hk ht)
      have hnodup := c'.nodup_spills k repair
      have hall : ((c'.colored k repair).2.reverse ++ ts).Nodup := by
        refine List.nodup_append.mpr ⟨List.nodup_reverse.mpr hnodup, h.nodup, fun t ht u hu => ?_⟩
        rintro rfl
        exact (hspills t (List.mem_reverse.mp ht)).2 hu
      -- one that is kept shows that not all are spilled
      obtain ⟨kept, hkept, hnew, hnot⟩ := hblocks.exists_kept hk hs
      obtain ⟨hkept, hnotts⟩ := h.spillable hne hkept hnew
      have hlen : ((c'.colored k repair).2.reverse ++ ts).length ≤ c.mentioned.size := by
        refine length_le_mentioned (t := kept) (List.nodup_cons.mpr ⟨fun hmem => ?_, hall⟩)
          fun u hu => ?_
        · exact (List.mem_append.mp hmem).elim (fun h => hnot (List.mem_reverse.mp h)) hnotts
        · rcases List.mem_cons.mp hu with rfl | hu
          · exact hkept
          · exact (List.mem_append.mp hu).elim
              (fun hu => (hspills u (List.mem_reverse.mp hu)).1) (h.temps u)
      rcases h.noted.spillAll (fun t ht => (hspills t ht).1) hall with hok | herror
      · obtain ⟨c₁, repair₁, st₁, hok, hmid⟩ := hok
        rw [hok]
        simp only
        split
        · next hbig =>
          refine ⟨⟨_, hmid.toSpilled⟩, fun _ _ _ heq => (by cases heq), fun _ => ?_⟩
          have hsize := hmid.size
          have hbound := Int64.lt_iff_toInt_lt.mp hbig
          have hmax : Allocation.maxSpillSize.toInt = 1048576 := by decide
          omega
        · have hpos := List.length_pos_of_ne_nil hs
          refine ih hmid ?_ (by omega)
          rw [List.length_append, List.length_reverse]
          omega
      · obtain ⟨cause, st₁, ts₁, herror, hspilled, hroom⟩ := herror
        rw [herror]
        refine ⟨⟨ts₁, hspilled⟩, fun _ _ _ heq => (by cases heq), fun hr => ?_⟩
        rw [List.length_append, List.length_reverse] at hlen
        exact Nat.lt_of_lt_of_le (hroom (hr.mono hlen)) hlen

end Rounds

end Code

/-! ## Allocation -/

/-- At most two temporaries besides the frame pointer are read and at most one is written, which is
not the frame pointer. -/
structure Instr.Slim (fp : Temp) (i : Instr) : Prop where
  uses : (i.uses.filter (· ≠ fp)).dedup.length ≤ 2
  defs : i.defs.dedup.length ≤ 1
  fp : fp ∉ i.defs

namespace Code

variable {c : Code} {k : Nat} {st : Session}

/-- Without spills, each instruction is a block. -/
theorem repaired_start (hnames : ∀ t ∈ c.temps, st.names.HasTemp t)
    (hslim : ∀ i ∈ c.instrs, i.Slim c.frame.fp) :
    c.Repaired st.names c.temps ∅ (c.instrs.map fun i => ⟨[], i, none⟩) := by
  have hnone : (c.instrs.map fun i => Block.mk [] i none).flatMap Block.temps = [] := by
    simp [List.flatMap_eq_nil_iff, Block.temps]
  refine ⟨?_, fun b hb => ?_, ?_, fun t => ?_, fun t ht => ?_, fun t ht => ?_, fun t ht => ?_, ?_,
    ?_⟩
  · simp [Block.code, List.flatMap_map]
  · obtain ⟨i, hi, rfl⟩ := List.mem_map.mp hb
    obtain ⟨huses, hdefs, -⟩ := hslim i hi
    have hmem : ∀ u, u ∈ i.uses ∨ u ∈ i.defs → u ∈ c.temps := fun u hu =>
      mem_temps.mpr (Or.inl ⟨i, hi, hu⟩)
    refine ⟨⟨_, by simpa using huses, fun z hz => ?_, fun u hu => ?_⟩, by simp, by simp,
      fun d hd => ⟨by simp, fun _ => hmem d (Or.inr hd), fun d' hd' => ?_⟩⟩
    · exact hmem z (Or.inl (List.mem_filter.mp (List.mem_dedup.mp hz)).1)
    · by_cases hfp : u = c.frame.fp
      · exact Or.inl hfp
      · refine Or.inr (Or.inr (List.mem_dedup.mpr (List.mem_filter.mpr ⟨hu, by simpa using hfp⟩)))
    · rw [← List.mem_dedup] at hd hd'
      obtain ⟨x, hx⟩ : ∃ x, i.defs.dedup = [x] :=
        List.length_eq_one_iff.mp (Nat.le_antisymm hdefs (List.length_pos_of_mem hd))
      rw [hx, List.mem_singleton] at hd hd'
      rw [hd, hd']
  · rw [hnone]
    exact List.nodup_nil
  · simp [hnone]
  · simp at ht
  · exact Or.inl (mem_temps.mpr (Or.inl ht))
  · exact hnames t (ht.resolve_right (by simp))
  · exact mem_temps.mpr (Or.inr (Or.inl rfl))
  · exact mem_temps.mpr (Or.inr (Or.inr rfl))

theorem midway_start (hslots : c.slots = ∅) (hsize : c.spillSize = 0)
    (hnames : ∀ t ∈ c.temps, st.names.HasTemp t) (hslim : ∀ i ∈ c.instrs, i.Slim c.frame.fp) :
    c.Midway st c st ∅ [] := by
  refine ⟨⟨⟨[], rfl, rfl⟩, List.nodup_nil, by simp⟩, ?_, ⟨_, repaired_start hnames hslim⟩, rfl,
    ?_, ?_⟩
  · exact ⟨hnames, by simp [hslots], fun i hi => (hslim i hi).fp⟩
  · simp [hslots]
  · rw [hsize]
    rfl

/-- With an admissible number of registers, allocation goes through rounds. -/
theorem allocate_eq (c : Code) (st : Session) (hk : 3 ≤ k) (hk' : k ≤ 250) :
    c.allocate k st =
      allocateRounds k (max c.temps.size 1) (max c.temps.size 1) 0 c ∅ st := by
  have hlow : ¬ k < Register.least := Nat.not_lt.mpr hk
  have hhigh : ¬ Register.firstGlobal ≤ k := Nat.not_le.mpr (Nat.lt_succ_of_le hk')
  rw [allocate, checkRegisters, if_neg hlow, if_neg hhigh]
  rfl

/-- Allocation for slim code settles: it never runs out of rounds, and takes no more of them than
the code has temporaries; it spills temporaries of the code it was given, each of them once; and
if the offsets of slots are words and there are few enough temporaries, it succeeds. -/
theorem allocate_settles (hk : 3 ≤ k) (hk' : k ≤ 250) (hslots : c.slots = ∅)
    (hsize : c.spillSize = 0) (hnames : ∀ t ∈ c.temps, st.names.HasTemp t)
    (hne : c.frame.fp ≠ c.frame.rv) (hslim : ∀ i ∈ c.instrs, i.Slim c.frame.fp) :
    (∀ a st', c.allocate k st = .ok a st' →
      a.rounds ≤ c.temps.size ∧ ∃ ts, c.Spilled st st' ts ∧ ∀ t, t ∈ a.code.slots ↔ t ∈ ts) ∧
    (∀ e st', c.allocate k st = .error e st' →
      (∃ ts, c.Spilled st st' ts) ∧ ∀ loc function n, e ≠ .exhausted loc function (.rounds n)) ∧
    (c.Roomy c.mentioned.size → c.mentioned.size ≤ 131072 →
      ∃ a st', c.allocate k st = .ok a st') := by
  have hsettles : c.Settles st (c.allocate k st) := by
    rw [allocate_eq c st hk hk']
    exact (midway_start hslots hsize hnames hslim).allocateRounds hk hne (Nat.zero_le _)
      (Nat.le_max_left _ _)
  cases hresult : c.allocate k st with
  | ok a st' =>
    rw [hresult] at hsettles
    refine ⟨fun a' st₁ h => ?_, fun e st₁ h => (by cases h), fun _ _ => ⟨a, st', rfl⟩⟩
    cases h
    exact hsettles
  | error e st' =>
    rw [hresult] at hsettles
    obtain ⟨hspilled, hrounds, hroom⟩ := hsettles
    refine ⟨fun a st₁ h => (by cases h), fun e' st₁ h => ?_, fun hr hsmall => ?_⟩
    · cases h
      exact ⟨hspilled, hrounds⟩
    · exact absurd (hroom hr) (Nat.not_lt.mpr hsmall)

theorem slim_crowded : ∀ i ∈ crowded.instrs, i.Slim crowded.frame.fp := by
  have h : ∀ i ∈ crowded.instrs, (i.uses.filter (· ≠ crowded.frame.fp)).dedup.length ≤ 2 ∧
      i.defs.dedup.length ≤ 1 ∧ crowded.frame.fp ∉ i.defs := by
    decide
  exact fun i hi => ⟨(h i hi).1, (h i hi).2.1, (h i hi).2.2⟩

/-- Three temporaries are spilled, in two rounds before the last. -/
theorem allocate_settles_crowded :
    crowded.slots = ∅ ∧ crowded.spillSize = 0 ∧
      (∀ i ∈ crowded.instrs, i.Slim crowded.frame.fp) ∧
      ∃ a st', crowded.allocate 3 { names := { temps := 8 } } = .ok a st' ∧ a.rounds = 3 ∧
        a.rounds ≤ crowded.temps.size ∧
        ∃ ts, crowded.Spilled { names := { temps := 8 } } st' ts ∧
          ∀ t, t ∈ a.code.slots ↔ t ∈ ts := by
  obtain ⟨hok, -, hexists⟩ := @Code.allocate_settles crowded 3 { names := { temps := 8 } }
    (by decide) (by decide) rfl rfl crowded_handed (by decide) slim_crowded
  have hroom : crowded.Roomy crowded.mentioned.size := ⟨by decide, by decide +kernel⟩
  obtain ⟨a, st', h⟩ := hexists hroom (by decide +kernel)
  have hrounds : ∃ a st', crowded.allocate 3 { names := { temps := 8 } } = .ok a st' ∧
      a.rounds = 3 := by
    decide +kernel
  obtain ⟨a', st₁, h', hthree⟩ := hrounds
  rw [h] at h'
  cases h'
  exact ⟨rfl, rfl, slim_crowded, a, st', h, hthree, hok a st' h⟩

end Code

end MmixBackend
