import Mathlib
import MmixBackend.Proofs.AssignedCode
import MmixBackend.Proofs.Places
import MmixBackend.Proofs.Prologue
import MmixBackend.Proofs.Structure

/-!
# The regions of a frame

Between the stack pointer and the frame pointer of a function lie its local variables, the two saved
registers, the spill slots and the area for arguments.  Layout sizes the variables and the area,
each spill takes the next slot, and the prologue moves the stack pointer; here they are shown to
agree.

Main statement: when array lengths are not negative, the regions of every function of an assembled
program are disjoint and leave nothing out, whatever was spilled, and the prologue makes room for
exactly these.  It holds whatever numbers nodes and declarations have.
-/

namespace MmixBackend

open Typed Build

namespace Layouting

/-! ## Frames -/

section Extents

variable {depth : Nat} {l l' : Layout} {s s' : Session} {x x' : Extent}

theorem extent_within {body : Option Expr} (h : extent depth body l s = .ok (x, l') s')
    (hc : ∀ e ∈ body.toList.flatMap Expr.within, ∀ ty ∈ e.types, ty.Counted) :
    Extent.Within {} x := by
  obtain ⟨htotal, harguments, -⟩ := extent_total h
  refine ⟨?_, harguments⟩
  rw [htotal]
  refine List.sum_nonneg (List.forall_mem_map.mpr fun v hv => Ty.Counted.bytes_nonneg ?_)
  obtain ⟨e, he, hv⟩ := List.mem_flatMap.mp hv
  exact hc e he _ (local_ty_mem_types hv)

end Extents

end Layouting

/-- The parts of a frame have sizes, and its temporaries are two that were handed out. -/
structure Frame.Proper (f : Frame) (n : Names) : Prop where
  size : f.size.toInt = f.locals.toInt + f.arguments.toInt + 16
  locals : 0 ≤ f.locals.toInt
  arguments : 0 ≤ f.arguments.toInt
  apart : f.fp ≠ f.rv
  fp : n.HasTemp f.fp
  rv : n.HasTemp f.rv

theorem Frame.Proper.mono {f : Frame} {n n' : Names} (h : f.Proper n) (hle : n ≤ n') :
    f.Proper n' :=
  ⟨h.size, h.locals, h.arguments, h.apart, Nat.lt_of_lt_of_le h.fp (Names.temps_le hle),
    Nat.lt_of_lt_of_le h.rv (Names.temps_le hle)⟩

theorem Frame.Proper.low {f : Frame} {n : Names} (h : f.Proper n) :
    Int64.minValue.toInt ≤ -f.locals.toInt - 16 := by
  have hsize := h.size
  have harguments := h.arguments
  have hword := Int64.toInt_le f.size
  have hmin := Int64.toInt_minValue
  have hmax := Int64.toInt_maxValue
  omega

def Layout.Proper (l : Layout) (n : Names) : Prop :=
  ∀ ⦃d : DeclId⦄ ⦃f : Frame⦄, l.frames[d]? = some f → f.Proper n

namespace Layouting

theorem item_proper {i : Item} {l l' : Layout} {s s' : Session} (h : item i l s = .ok ((), l') s')
    (hc : ∀ ty ∈ i.types, ty.Counted) (hl : l.Proper s.names) : l'.Proper s'.names := by
  obtain ⟨hle, hframes⟩ := item_frames h
  intro d f hf
  cases i with
  | var v => exact (hl (hframes ▸ hf)).mono hle
  | function around head body =>
    obtain ⟨_, frame, -, -, heq, hmade⟩ := hframes
    rw [heq] at hf
    obtain ⟨rfl, rfl⟩ | ⟨-, hf⟩ := Table.of_getElem?_insert hf
    · obtain ⟨label, s₁, l₂, s₂, l₃, s₃, x, l₄, s₄, f', -, hparams, hret, hx, hmake, hs, rfl⟩ :=
        function_ok h
      obtain rfl : f' = f := by
        rw [← heq, Std.ExtTreeMap.getElem?_insert_self] at hf
        exact Option.some.inj hf
      obtain ⟨parts, size, hsum, hsize, rfl⟩ := make_ok hmake
      have hsumInt := Word.toInt_checkedAdd hsum
      have hin := extent_within hx fun e he ty hty => hc ty
        (List.mem_append_right _ (List.mem_cons_of_mem _ (List.mem_flatMap.mpr ⟨e, he, hty⟩)))
      refine ⟨?_, hin.locals, hin.arguments, hmade.ne, hmade.fp, hmade.rv⟩
      rw [Word.toInt_checkedAdd hsize, hsumInt]
      rfl
    · exact (hl hf).mono hle

theorem layout_proper {p : Program} {s s' : Session} {l : Layout} (h : p.layout s = .ok l s')
    (hc : ∀ ty ∈ p.types, ty.Counted) : l.Proper s'.names := by
  refine forM_item_induction (P := fun l₁ s₁ => l₁.Proper s₁.names) ?_ (layout_items h) ?_
  · exact fun i hi {_ _ _ _} hitem hl =>
      item_proper hitem (fun ty hty => hc ty (List.mem_flatMap.mpr ⟨i, hi, hty⟩)) hl
  · intro d f hf
    simp at hf

end Layouting

/-! ## Slots -/

namespace Code

variable {c c' : Code} {t : Temp} {ts us : List Temp} {k : Nat} {st st' : Session}

/-- The slots of code in which these temporaries were spilled in order: eight bytes each, one below
the other under the saved registers. -/
structure Slotted (c : Code) (ts : List Temp) : Prop where
  size : c.spillSize.toInt = 8 * ts.length
  count : c.slots.size = ts.length
  mem : ∀ t, t ∈ c.slots ↔ t ∈ ts
  place : ∀ {j : Nat} {t : Temp}, ts[j]? = some t →
    ∃ offset, c.slots[t]? = some offset ∧ offset.toInt = -c.frame.locals.toInt - 16 - 8 * (j + 1)

theorem slotted_start (hslots : c.slots = ∅) (hsize : c.spillSize = 0) : c.Slotted [] := by
  refine ⟨by simp [hsize], by simp [hslots], by simp [hslots], ?_⟩
  intro j t hj
  cases hj

theorem Slotted.spilled {offset spillSize : Word} (h : c.Slotted ts) (ht : t ∉ ts)
    (hslot : c.nextSlot = .ok (offset, spillSize)) (n : Nat) :
    (c.spilled t offset spillSize n).Slotted (ts ++ [t]) := by
  obtain ⟨hsize, hoffset⟩ := nextSlot_ok hslot
  have hlength : (ts ++ [t]).length = ts.length + 1 := by simp
  have hold := h.size
  refine ⟨?_, ?_, fun u => ?_, fun {j u} hj => ?_⟩
  · show spillSize.toInt = _
    omega
  · have hout : ¬ c.slots.contains t := fun hmem =>
      ht ((h.mem t).mp (Std.ExtTreeMap.contains_iff_mem.mp hmem))
    rw [Std.ExtTreeMap.size_insert, if_neg hout, h.count, hlength]
  · rw [Table.mem_insert, h.mem, List.mem_append, List.mem_singleton, or_comm, eq_comm]
  · rcases Nat.lt_or_ge j ts.length with hlt | hge
    · -- an older slot stays where it is
      rw [List.getElem?_append_left hlt] at hj
      obtain ⟨place, hplace, hat⟩ := h.place hj
      refine ⟨place, (Table.getElem?_insert_of_ne ?_).trans hplace, hat⟩
      exact fun heq => ht (heq ▸ List.mem_of_getElem? hj)
    · have hjlast : j = ts.length := by
        have hlt := (List.getElem?_eq_some_iff.mp hj).1
        omega
      rw [hjlast, List.getElem?_concat_length] at hj
      cases hj
      exact ⟨offset, Std.ExtTreeMap.getElem?_insert_self, by simp only; omega⟩

theorem Slotted.spillAll :
    ∀ {c : Code} {repair repair' : TempSet} {us : List Temp} {st : Session}, c.Slotted us →
      ts.Nodup → (∀ t ∈ ts, t ∉ us) → c.spillAll repair ts st = .ok (c', repair') st' →
      c'.Slotted (us ++ ts) := by
  induction ts with
  | nil =>
    intro c repair repair' us st h _ _ hok
    cases hok
    rwa [List.append_nil]
  | cons t ts ih =>
    intro c repair repair' us st h hnodup hnew hok
    rw [spillAll_cons] at hok
    obtain ⟨hhead, htail⟩ := List.nodup_cons.mp hnodup
    cases hslot : c.nextSlot with
    | error cause =>
      rw [hslot] at hok
      cases hok
    | ok slot =>
      obtain ⟨offset, spillSize⟩ := slot
      rw [hslot] at hok
      have hstep := h.spilled (hnew t List.mem_cons_self) hslot st.names.temps
      rw [List.append_cons]
      refine ih hstep htail (fun u hu hmem => ?_) hok
      rcases List.mem_append.mp hmem with hmem | hmem
      · exact hnew u (List.mem_cons_of_mem _ hu) hmem
      · exact hhead (List.mem_singleton.mp hmem ▸ hu)

/-- What was spilled is not spilled again. -/
theorem Tidy.notMem_slots {n : Names} {repair : TempSet} (h : c.Tidy n)
    (ht : t ∈ (c.colored k repair).2) : t ∉ c.slots := by
  intro hslot
  rcases mem_vertices_interference.mp (mem_vertices_of_spill ht) with ⟨-, hm⟩ | hrv
  · exact (h.slots hslot).2.1 hm
  · obtain ⟨rfl, hnot⟩ := mem_liveAtExit.mp hrv
    exact hnot hslot

/-- However many rounds allocation takes, it leaves slots one below the other. -/
theorem Fresh.slotted {a : Allocation} (h : c.Fresh st.names) (hok : c.allocate k st = .ok a st') :
    a.code.frame = c.frame ∧ ∃ ts, a.code.Slotted ts := by
  obtain ⟨-, -, hrounds⟩ := allocate_ok hok
  let P (c₁ : Code) (n : Names) : Prop := c₁.Tidy n ∧ c₁.frame = c.frame ∧ ∃ ts, c₁.Slotted ts
  have hstart : P c st.names :=
    ⟨⟨h.temps, by simp [h.slots], fun i hi => (h.slim i hi).fp⟩, rfl, [],
      slotted_start h.slots h.size⟩
  refine (allocateRounds_induction (P := P) ?_ hstart hrounds).1.2
  rintro c₁ c₂ repair repair' st₁ st₂ ⟨htidy, hframe, us, hslotted⟩ hspill
  obtain ⟨htidy', hframe'⟩ := htidy.spillAll (htidy.spillable (hframe ▸ h.apart)) hspill
  have hnew : ∀ t ∈ (c₁.colored k repair).2, t ∉ us := fun t ht hmem =>
    htidy.notMem_slots ht ((hslotted.mem t).mpr hmem)
  exact ⟨htidy', hframe'.trans hframe, _, hslotted.spillAll (nodup_spills ..) hnew hspill⟩

/-! ## Regions -/

end Code

/-- What lies in a frame. -/
inductive Region where
  | locals
  | savedFp
  | savedReturn
  | slot (t : Temp)
  | outgoing
  deriving DecidableEq

namespace Code

variable {c : Code} {t : Temp} {ts : List Temp} {x : Int}

/-- The bytes of a region, as offsets from the frame pointer. -/
def region (c : Code) : Region → Set Int
  | .locals => Set.Ico (-c.frame.locals.toInt) 0
  | .savedFp => Set.Ico (-c.frame.locals.toInt - 8) (-c.frame.locals.toInt)
  | .savedReturn => Set.Ico (-c.frame.locals.toInt - 16) (-c.frame.locals.toInt - 8)
  | .slot t => ⋃ offset ∈ c.slots[t]?, Set.Ico offset.toInt (offset.toInt + 8)
  | .outgoing => Set.Ico (-c.room) (-c.room + c.frame.arguments.toInt)

/-- The regions of a frame are disjoint, and there is nothing else between the stack pointer and the
frame pointer; the slots fill the bytes that were set aside for them. -/
structure Tiled (c : Code) : Prop where
  locals : 0 ≤ c.frame.locals.toInt
  arguments : 0 ≤ c.frame.arguments.toInt
  spillSize : c.spillSize.toInt = 8 * c.slots.size
  apart : Pairwise fun r r' => Disjoint (c.region r) (c.region r')
  cover : ⋃ r, c.region r = Set.Ico (-c.room) 0
  slots : ⋃ t, c.region (.slot t) =
    Set.Ico (-c.frame.locals.toInt - 16 - c.spillSize.toInt) (-c.frame.locals.toInt - 16)

theorem Slotted.mem_region (h : c.Slotted ts) : x ∈ c.region (.slot t) ↔
    ∃ j : Nat, ts[j]? = some t ∧ -c.frame.locals.toInt - 16 - 8 * (j + 1) ≤ x ∧
      x < -c.frame.locals.toInt - 16 - 8 * j := by
  simp only [region, Set.mem_iUnion, Set.mem_Ico, Option.mem_def, exists_prop]
  constructor
  · rintro ⟨offset, hoffset, hlow, hhigh⟩
    have hmem : t ∈ ts :=
      (h.mem t).mp (Std.ExtTreeMap.isSome_getElem?_iff_mem.mp (by simp [hoffset]))
    obtain ⟨j, hj⟩ := List.mem_iff_getElem?.mp hmem
    obtain ⟨place, hplace, hat⟩ := h.place hj
    cases hplace.symm.trans hoffset
    exact ⟨j, hj, by omega, by omega⟩
  · rintro ⟨j, hj, hlow, hhigh⟩
    obtain ⟨place, hplace, hat⟩ := h.place hj
    exact ⟨place, hplace, by omega, by omega⟩

/-- The slots lie in the bytes that were set aside for them. -/
theorem Slotted.region_bounds (h : c.Slotted ts) (hx : x ∈ c.region (.slot t)) :
    -c.frame.locals.toInt - 16 - c.spillSize.toInt ≤ x ∧ x < -c.frame.locals.toInt - 16 := by
  obtain ⟨j, hj, hlow, hhigh⟩ := h.mem_region.mp hx
  have hlt := (List.getElem?_eq_some_iff.mp hj).1
  have hsize := h.size
  omega

/-- Each byte that was set aside belongs to a slot. -/
theorem Slotted.exists_region (h : c.Slotted ts)
    (hlow : -c.frame.locals.toInt - 16 - c.spillSize.toInt ≤ x)
    (hhigh : x < -c.frame.locals.toInt - 16) : ∃ t, x ∈ c.region (.slot t) := by
  have hsize := h.size
  obtain ⟨j, hj⟩ : ∃ j : Nat, (j : Int) = (-c.frame.locals.toInt - 17 - x) / 8 :=
    ⟨((-c.frame.locals.toInt - 17 - x) / 8).toNat, by omega⟩
  have hlt : j < ts.length := by omega
  exact ⟨ts[j], h.mem_region.mpr ⟨j, List.getElem?_eq_getElem hlt, by omega, by omega⟩⟩

theorem Slotted.region_unique {u : Temp} (h : c.Slotted ts) (ht : x ∈ c.region (.slot t))
    (hu : x ∈ c.region (.slot u)) : t = u := by
  obtain ⟨i, hi, hlow, hhigh⟩ := h.mem_region.mp ht
  obtain ⟨j, hj, hlow', hhigh'⟩ := h.mem_region.mp hu
  obtain rfl : i = j := by omega
  exact Option.some.inj (hi.symm.trans hj)

section Tiled

variable {n : Names}

theorem room_eq (hf : c.frame.Proper n) :
    c.room = c.frame.locals.toInt + c.frame.arguments.toInt + 16 + c.spillSize.toInt := by
  rw [room, hf.size]

theorem Slotted.spillSize_nonneg (h : c.Slotted ts) : 0 ≤ c.spillSize.toInt := by
  rw [h.size]
  omega

theorem Slotted.disjoint (h : c.Slotted ts) (hf : c.frame.Proper n) {r r' : Region} (hne : r ≠ r') :
    Disjoint (c.region r) (c.region r') := by
  have hroom := room_eq hf
  have hlocals := hf.locals
  have hspill := h.spillSize_nonneg
  refine Set.disjoint_left.mpr fun x hx hx' => ?_
  cases r with
  | slot t =>
    cases r' with
    | slot u => exact hne (congrArg _ (h.region_unique hx hx'))
    | locals | savedFp | savedReturn | outgoing =>
      have hbounds := h.region_bounds hx
      simp only [region, Set.mem_Ico] at hx'
      omega
  | locals | savedFp | savedReturn | outgoing =>
    cases r' with
    | slot u =>
      have hbounds := h.region_bounds hx'
      simp only [region, Set.mem_Ico] at hx
      omega
    | locals | savedFp | savedReturn | outgoing =>
      simp only [region, Set.mem_Ico] at hx hx'
      first
      | exact hne rfl
      | omega

theorem Slotted.region_subset (h : c.Slotted ts) (hf : c.frame.Proper n) (r : Region) :
    c.region r ⊆ Set.Ico (-c.room) 0 := by
  have hroom := room_eq hf
  have hlocals := hf.locals
  have harguments := hf.arguments
  have hspill := h.spillSize_nonneg
  intro x hx
  rw [Set.mem_Ico]
  cases r with
  | slot t =>
    have hbounds := h.region_bounds hx
    omega
  | locals | savedFp | savedReturn | outgoing =>
    simp only [region, Set.mem_Ico] at hx
    omega

/-- Each byte of the frame lies in a region. -/
theorem Slotted.exists_mem_region (h : c.Slotted ts) (hf : c.frame.Proper n)
    (hx : x ∈ Set.Ico (-c.room) 0) : ∃ r, x ∈ c.region r := by
  have hroom := room_eq hf
  rw [Set.mem_Ico] at hx
  rcases lt_or_ge x (-c.frame.locals.toInt) with h₁ | h₁
  · rcases lt_or_ge x (-c.frame.locals.toInt - 8) with h₂ | h₂
    · rcases lt_or_ge x (-c.frame.locals.toInt - 16) with h₃ | h₃
      · rcases lt_or_ge x (-c.frame.locals.toInt - 16 - c.spillSize.toInt) with h₄ | h₄
        · exact ⟨.outgoing, Set.mem_Ico.mpr ⟨hx.1, by omega⟩⟩
        · obtain ⟨t, ht⟩ := h.exists_region h₄ h₃
          exact ⟨.slot t, ht⟩
      · exact ⟨.savedReturn, Set.mem_Ico.mpr ⟨h₃, h₂⟩⟩
    · exact ⟨.savedFp, Set.mem_Ico.mpr ⟨h₂, h₁⟩⟩
  · exact ⟨.locals, Set.mem_Ico.mpr ⟨h₁, hx.2⟩⟩

/-- Slots in order and a proper frame make a frame without gaps. -/
theorem Slotted.tiled (h : c.Slotted ts) (hf : c.frame.Proper n) : c.Tiled where
  locals := hf.locals
  arguments := hf.arguments
  spillSize := by rw [h.size, h.count]
  apart _ _ hne := h.disjoint hf hne
  cover := by
    refine Set.Subset.antisymm (Set.iUnion_subset (h.region_subset hf)) fun x hx => ?_
    exact Set.mem_iUnion.mpr (h.exists_mem_region hf hx)
  slots := by
    refine Set.Subset.antisymm (Set.iUnion_subset fun t x hx => h.region_bounds hx) fun x hx => ?_
    exact Set.mem_iUnion.mpr (h.exists_region hx.1 hx.2)

end Tiled

end Code

/-! ## Assembled programs -/

/-- Selection for the functions of a program gives fresh code with their frames. -/
theorem Chunks.select_ok {chunks : Chunks} {k : Nat} {codes : List Code} {s s' : Session}
    (h : chunks.select k s = .ok codes s')
    (hdrawn : ∀ c ∈ chunks.code, c.Drawn s.names ∧ Ir.isCanonical c.stmts) :
    (∀ c ∈ codes, c.Fresh s'.names) ∧ codes.map (·.frame) = chunks.code.map (·.frame) := by
  obtain ⟨codes', s₁, hcodes, -, hfresh, hframes⟩ := selectAll_ok k hdrawn
  obtain ⟨u, s₂, hcheck, hrun⟩ := bind_ok.mp h
  obtain ⟨-, -, rfl⟩ := Code.checkRegisters_ok hcheck
  cases hrun.symm.trans hcodes
  exact ⟨hfresh, hframes⟩

/-- Allocation for several functions keeps their frames and gives each of them slots in order. -/
theorem allocateAll_slotted {k : Nat} :
    ∀ {cs : List Code} {as : List Allocation} {st st' : Session},
      (∀ c ∈ cs, c.Fresh st.names) → allocateAll cs k st = .ok as st' →
      as.map (·.code.frame) = cs.map (·.frame) ∧ ∀ a ∈ as, ∃ ts, a.code.Slotted ts := by
  intro cs
  induction cs with
  | nil =>
    intro as st st' _ h
    cases h
    exact ⟨rfl, by simp⟩
  | cons c cs ih =>
    intro as st st' hfresh h
    rw [allocateAll, List.mapM_cons] at h
    obtain ⟨a, st₁, ha, h⟩ := bind_ok.mp h
    obtain ⟨as', st₂, has, h⟩ := bind_ok.mp h
    obtain ⟨rfl, rfl⟩ := pure_ok.mp h
    have hle := Code.allocateRounds_le (Code.allocate_ok ha).2.2
    obtain ⟨hframe, hslotted⟩ := (hfresh c List.mem_cons_self).slotted ha
    obtain ⟨hframes, hall⟩ :=
      ih (fun c' hc' => (hfresh c' (List.mem_cons_of_mem _ hc')).mono hle) has
    exact ⟨by rw [List.map_cons, List.map_cons, hframe, hframes],
      List.forall_mem_cons.mpr ⟨hslotted, hall⟩⟩

namespace Assembly

theorem functions_prologue {names : Names} :
    ∀ {as : List Allocation} {rows : List Row} {s s' : Session},
      functions names as s = .ok rows s' → ∀ a ∈ as, ∃ is, prologue names a.code = .ok is
  | [], _, _, _, _, a, ha => by cases ha
  | b :: as, _, s, _, h, a, ha => by
    obtain ⟨lines, s₁, hb, h⟩ := bind_ok.mp h
    obtain ⟨rest, s₂, has, -⟩ := bind_ok.mp h
    rcases List.mem_cons.mp ha with rfl | ha
    · obtain ⟨is, _, his, -⟩ := bind_ok.mp hb
      exact ⟨is, (exactly_ok.mp his).1⟩
    · exact functions_prologue has a ha

theorem program_prologue {data : List DataChunk} {as : List Allocation} {k : Nat}
    {lines : List String} {s s' : Session} (h : program data as k s = .ok lines s') :
    ∀ a ∈ as, ∃ is, prologue s.names a.code = .ok is := by
  obtain ⟨rows, s₁, hrows, -⟩ := bind_ok.mp h
  cases hmain : as.any (isMain s.names) with
  | false =>
    rw [listing_of_no_main hmain] at hrows
    cases hrows
  | true =>
    rw [listing_of_main _ _ hmain] at hrows
    obtain ⟨_, _, hfunctions, -⟩ := bind_ok.mp hrows
    exact functions_prologue hfunctions

end Assembly

namespace Typed.Program

variable {p : Program} {c : Compiled} {k : Nat} {s₀ s s' : Session} {lines : List String}

/-- The chunks of a compiled program have proper frames and only temporaries that were handed out,
whatever numbers nodes and declarations have. -/
theorem compile_proper (h : p.compile s₀ = .ok c s) (hc : ∀ ty ∈ p.types, ty.Counted) :
    ∀ chunk ∈ c.chunks.code,
      (chunk.Drawn s.names ∧ Ir.isCanonical chunk.stmts) ∧ chunk.frame.Proper s.names := by
  obtain ⟨s₁, s₂, hlayout, hlower, hchunks⟩ := compile_ok h
  have hproper := Layouting.layout_proper hlayout hc
  have hof := chunksOf hchunks
  have hle := (Lowering.functions_lowers hlower).change.names
  intro chunk hchunk
  obtain ⟨f, hf, r, r', hbuild, hler, hler'⟩ := exists_rel_of_mem hof.code chunk hchunk
  obtain ⟨value, _, _, hframe, hvalue, -⟩ := CodeChunk.build_ok hbuild
  -- the code of the body was made inside of a function that has a frame
  have hmade := (Lowering.functions_lowers hlower).allMade rfl (Lowering.allMade_empty s₁.names)
  obtain ⟨scope, e, t, t', r₁, r₂, ⟨-, d, frame, hd, hscope⟩, hir, -⟩ := hmade hvalue
  have hbody : ∀ value', c.code.exprs[f.2.id]? = some value' → value'.Confined frame.fp := by
    intro value' hvalue'
    cases hvalue.symm.trans hvalue'
    exact (Lowering.expr_lowers hir).confined hscope
  have hown := (hproper hframe).mono hle
  obtain ⟨hdrawn, hform⟩ := CodeChunk.build_drawn hbuild hbody ((hproper hd).mono hle).fp hler
    hown.apart hown.fp hown.rv
  exact ⟨⟨hdrawn.mono hler', hform⟩, hown.mono hof.names⟩

/-- In the final code of every function of an assembled program the regions of the frame tile what
lies between the stack pointer and the frame pointer, and the prologue makes just that room. -/
theorem assemble_tiled (h : p.assemble k s₀ = .ok lines s') (hc : ∀ ty ∈ p.types, ty.Counted) :
    ∃ c s codes s₁ as s₂, p.compile s₀ = .ok c s ∧ c.chunks.select k s = .ok codes s₁ ∧
      allocateAll codes k s₁ = .ok as s₂ ∧
      as.map (·.code.frame) = c.chunks.code.map (·.frame) ∧
      ∀ a ∈ as, a.code.Tiled ∧ ∃ is, Assembly.prologue s₂.names a.code = .ok is ∧
        ∀ p, ∃ straight p',
          is = straight ++ [{ op := .jmp, args := [.sym (s₂.names.textOf a.code.entry)] }] ∧
          p.execs? straight = some p' ∧ a.code.Enters p p' := by
  obtain ⟨c, s, hcompile, h⟩ := bind_ok.mp h
  obtain ⟨codes, s₁, hselect, h⟩ := bind_ok.mp h
  obtain ⟨as, s₂, hall, hprogram⟩ := bind_ok.mp h
  have hproper := compile_proper hcompile hc
  obtain ⟨hfresh, hframes⟩ :=
    Chunks.select_ok hselect fun chunk hchunk => (hproper chunk hchunk).1
  obtain ⟨hframes', hslotted⟩ := allocateAll_slotted hfresh hall
  have hsame := hframes'.trans hframes
  refine ⟨c, s, codes, s₁, as, s₂, hcompile, hselect, hall, hsame, fun a ha => ?_⟩
  obtain ⟨chunk, hchunk, hframe⟩ := List.mem_map.mp
    (hsame ▸ List.mem_map_of_mem ha : a.code.frame ∈ c.chunks.code.map (·.frame))
  have hown : a.code.frame.Proper s.names := hframe ▸ (hproper chunk hchunk).2
  obtain ⟨ts, hts⟩ := hslotted a ha
  obtain ⟨is, his⟩ := Assembly.program_prologue hprogram a ha
  exact ⟨hts.tiled hown, is, his, Assembly.execs?_prologue his hown.low⟩

/-- With three registers one temporary of this program has a slot. -/
theorem assemble_tiled_choosing :
    (∀ ty ∈ choosing.types, ty.Counted) ∧ ∃ lines s', choosing.assemble 3 {} = .ok lines s' ∧
      ∃ c s codes s₁ as s₂, choosing.compile {} = .ok c s ∧
        c.chunks.select 3 s = .ok codes s₁ ∧ allocateAll codes 3 s₁ = .ok as s₂ ∧
        as.map (·.code.slots.size) = [1] ∧ ∀ a ∈ as, a.code.Tiled := by
  have hcounted : ∀ ty ∈ choosing.types, ty.Counted := by decide
  obtain ⟨c, s, chunk, code, s₁, a, s₂, lines, s₃, hc, hone, hchunk, hcode, hprogram, hsize⟩ :=
    exists_choosing
  have hselect : c.chunks.select 3 s = .ok [code] s₁ := by
    rw [Chunks.select, hone, List.mapM_cons, List.mapM_nil]
    exact bind_ok.mpr ⟨(), s, rfl, bind_ok.mpr ⟨code, s₁, hchunk, rfl⟩⟩
  have hall : allocateAll [code] 3 s₁ = .ok [a] s₂ := by
    rw [allocateAll, List.mapM_cons, List.mapM_nil]
    exact bind_ok.mpr ⟨a, s₂, hcode, rfl⟩
  have hok : choosing.assemble 3 {} = .ok lines s₃ := by
    rw [Program.assemble, bind_of_ok hc, Chunks.assemble, bind_of_ok hselect, bind_of_ok hall,
      hprogram]
  obtain ⟨c', r, codes', r₁, as', r₂, hc', hselect', hall', -, htiled⟩ :=
    assemble_tiled hok hcounted
  cases hc.symm.trans hc'
  cases hselect.symm.trans hselect'
  cases hall.symm.trans hall'
  exact ⟨hcounted, lines, s₃, hok, c, s, [code], s₁, [a], s₂, hc, hselect, hall,
    congrArg (fun n => [n]) hsize, fun a ha => (htiled a ha).1⟩

end Typed.Program

end MmixBackend
