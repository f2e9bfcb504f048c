import MmixBackend.Proofs.Registry

/-!
# Where components lie

With a component always being one of the same record, placing a type leaves the components of every
record in it one after another from the start of the record, and moves nothing that has a place.  A
record is passed over when its first component has a place already.  By then all of the record is
laid out, except for the records around the one at hand, which have more components.

Along the entries of a program, the records of each type are laid out, and a variable is no
component.  So every record in the program is laid out in the end.
-/

namespace MmixBackend

open Typed Build

/-! ## Records in records -/

namespace Typed

mutual

theorem Ty.records_of_record {cs : List Component} :
    ∀ {ty : Ty}, cs ∈ ty.records → Component.listRecords cs ⊆ ty.records
  | .ptr elem, h | .array elem _, h => by
    rw [Ty.records] at h ⊢
    exact Ty.records_of_record h
  | .record comps, h => by
    rw [Ty.records] at h ⊢
    refine List.subset_cons_of_subset _ ?_
    rcases List.mem_cons.mp h with rfl | h
    · exact List.Subset.refl _
    · exact Component.records_of_record h
  | .void, h | .char, h | .int, h | .bool, h => by
    rw [Ty.records] at h
    cases h

theorem Component.records_of_record {cs : List Component} :
    ∀ {comps : List Component}, cs ∈ Component.listRecords comps →
      Component.listRecords cs ⊆ Component.listRecords comps
  | [], h => by cases h
  | ⟨_, _, ty⟩ :: comps, h => by
    rw [Component.listRecords, List.mem_append] at h
    rw [Component.listRecords]
    rcases h with h | h
    · exact List.subset_append_of_subset_left _ (Ty.records_of_record h)
    · exact List.subset_append_of_subset_right _ (Component.records_of_record h)

end

/-- A component is always one of the same record, and only once. -/
structure Coherent (R : List (List Component)) : Prop where
  same : ∀ cs ∈ R, ∀ cs' ∈ R, ∀ d ∈ cs.map (·.id), d ∈ cs'.map (·.id) → cs = cs'
  nodup : ∀ cs ∈ R, (cs.map (·.id)).Nodup

end Typed

namespace Layouting

/-! ## Laying out a record -/

/-- The components of a record lie one after another from its start, and the record has a size. -/
structure LaidOut (places : Table DeclId Access) (cs : List Component) : Prop where
  lie : List.Forall₂ (Lies places 0) (cs.map fun c => (c.id, c.ty))
    (Span.upFrom 0 (cs.map (·.ty.bytes)))
  size : ∃ n, (Ty.record cs).size = .ok n

/-- Records that have a place for a component are laid out, with the records in them. -/
abbrev Ready : List (List Component) → Nat → Table DeclId Access → Prop :=
  Filled fun places cs => ∀ cs' ∈ cs :: Component.listRecords cs, LaidOut places cs'

/-- What has a place keeps it. -/
def Extends (places places' : Table DeclId Access) : Prop :=
  ∀ d ∈ places, places'[d]? = places[d]?

section Records

variable {R : List (List Component)} {n m : Nat} {places places₁ places' : Table DeclId Access}
  {cs : List Component}

theorem LaidOut.congr (h : LaidOut places cs)
    (hcs : ∀ c ∈ cs, places'[c.id]? = places[c.id]?) : LaidOut places' cs where
  lie := by
    refine lie_congr h.lie fun v hv => ?_
    obtain ⟨c, hc, rfl⟩ := List.mem_map.mp hv
    exact hcs c hc
  size := h.size

theorem LaidOut.mem (h : LaidOut places cs) {c : Component} (hc : c ∈ cs) : c.id ∈ places := by
  have hv : (c.id, c.ty) ∈ cs.map fun c => (c.id, c.ty) := List.mem_map_of_mem hc
  obtain ⟨span, -, offset, n, hplace, -⟩ := exists_rel_of_mem h.lie _ hv
  rw [Std.ExtTreeMap.mem_iff_isSome_getElem?, hplace]
  rfl

theorem LaidOut.extend (h : LaidOut places cs) (hext : Extends places places') :
    LaidOut places' cs :=
  h.congr fun _ hc => hext _ (h.mem hc)

theorem Extends.refl (places : Table DeclId Access) : Extends places places := fun _ _ => rfl

theorem Extends.mem (h : Extends places places') {d : DeclId} (hd : d ∈ places) :
    d ∈ places' := by
  rw [Std.ExtTreeMap.mem_iff_isSome_getElem?] at hd ⊢
  rwa [h d (Std.ExtTreeMap.mem_iff_isSome_getElem?.mpr hd)]

theorem Extends.trans (h : Extends places places₁) (h' : Extends places₁ places') :
    Extends places places' := fun d hd => (h' d (h.mem hd)).trans (h d hd)

theorem extends_insert {id : DeclId} (hid : id ∉ places) (a : Access) :
    Extends places (places.insert id a) := by
  intro d hd
  exact Table.getElem?_insert_of_ne fun heq => hid (heq ▸ hd)

theorem Ready.place (hR : Coherent R) (h : Ready R n places) {ty : Ty}
    (hty : ty.place places = .ok places') (hsub : ty.records ⊆ R)
    (hext : Extends places places') (hall : ∀ cs ∈ ty.records, LaidOut places' cs) :
    Ready R n places' := by
  refine h.extend (fun d => (mem_of_place hty d).2)
    (fun cs hcs cs' hcs' => (hcs cs' hcs').extend hext) fun cs hcs d hd hin => ?_
  obtain ⟨own, hown, hd', -⟩ := Ty.exists_record hin
  obtain rfl := hR.same cs hcs own (hsub hown) d hd hd'
  exact List.forall_mem_cons.mpr
    ⟨hall cs hown, fun cs' hcs' => hall cs' (Ty.records_of_record hown hcs')⟩

mutual

/-- Placing a type lays out all records in it, and what had a place keeps it. -/
theorem place_lays (hR : Coherent R) :
    ∀ {ty : Ty} {n : Nat} {places places' : Table DeclId Access}, ty.place places = .ok places' →
      ty.records ⊆ R → ty.components.length ≤ n → Ready R n places →
      Extends places places' ∧ ∀ cs ∈ ty.records, LaidOut places' cs
  | .ptr elem, _, _, _, h, hsub, hlen, hready | .array elem _, _, _, _, h, hsub, hlen, hready => by
    rw [Ty.place] at h
    rw [Ty.records] at hsub ⊢
    rw [Ty.components] at hlen
    exact place_lays hR h hsub hlen hready
  | .record comps, n, places, places', h, hsub, hlen, hready => by
    rw [Ty.place] at h
    rw [Ty.records] at hsub ⊢
    rw [Ty.components] at hlen
    obtain ⟨hown, hsub⟩ := List.cons_subset.mp hsub
    split at h
    · -- the first component has a place, so the record is laid out
      next hfirst =>
        cases h
        refine ⟨.refl places, ?_⟩
        cases comps with
        | nil => simp at hfirst
        | cons c cs => exact hready _ hown hlen c.id (by simp) (by simpa using hfirst)
    · -- no component has a place, as the first would have one too
      next hfirst =>
        have hfresh : ∀ c ∈ comps, c.id ∉ places := by
          intro c hc hin
          have hlaid := hready _ hown hlen c.id (List.mem_map_of_mem hc) hin _
            List.mem_cons_self
          cases comps with
          | nil => cases hc
          | cons first cs =>
            exact hfirst (by simpa using hlaid.mem (c := first) List.mem_cons_self)
        have habove : ∀ c ∈ comps, ∀ cs ∈ R, (Component.listComponents cs).length ≤
            (Component.listComponents comps).length - 1 → c.id ∉ cs.map (·.id) := by
          intro c hc cs hcs hle hmem
          have hpos := List.length_pos_of_mem
            (Component.map_id_subset comps (List.mem_map_of_mem hc))
          obtain rfl := hR.same cs hcs comps hown c.id hmem (List.mem_map_of_mem hc)
          omega
        obtain ⟨hext, hrest, hlie, hsize⟩ := placeFrom_lays hR h hsub (by omega) habove
          (hR.nodup _ hown) hfresh (hready.mono (by omega))
        exact ⟨hext, List.forall_mem_cons.mpr ⟨⟨hlie, hsize⟩, hrest⟩⟩
  | .void, _, _, _, h, _, _, _ | .char, _, _, _, h, _, _, _ | .int, _, _, _, h, _, _, _
  | .bool, _, _, _, h, _, _, _ => by
    rw [Ty.place] at h
    cases h
    exact ⟨.refl _, by simp [Ty.records]⟩

theorem placeFrom_lays (hR : Coherent R) :
    ∀ {comps : List Component} {n : Nat} {offset : Word} {places places' : Table DeclId Access},
      Component.placeFrom offset comps places = .ok places' → Component.listRecords comps ⊆ R →
      (Component.listComponents comps).length ≤ n + 1 →
      (∀ c ∈ comps, ∀ cs ∈ R, (Component.listComponents cs).length ≤ n → c.id ∉ cs.map (·.id)) →
      (comps.map (·.id)).Nodup → (∀ c ∈ comps, c.id ∉ places) → Ready R n places →
      Extends places places' ∧ (∀ cs ∈ Component.listRecords comps, LaidOut places' cs) ∧
        List.Forall₂ (Lies places' 0) (comps.map fun c => (c.id, c.ty))
          (Span.upFrom offset.toInt (comps.map (·.ty.bytes))) ∧
        ∃ last, Component.sizes offset comps = .ok last
  | [], _, offset, _, _, h, _, _, _, _, _, _ => by
    rw [Component.placeFrom] at h
    cases h
    exact ⟨.refl _, by simp [Component.listRecords], .nil, offset, rfl⟩
  | ⟨id, name, ty⟩ :: comps, n, offset, places, places', h, hsub, hlen, habove, hnodup, hfresh,
      hready => by
      obtain ⟨places₁, size, next, hty, hn, hnext, h⟩ := placeFrom_cons h
      rw [Component.listRecords, List.append_subset] at hsub
      rw [Component.listComponents, List.length_cons, List.length_append] at hlen
      obtain ⟨habove₁, habove⟩ := List.forall_mem_cons.mp habove
      obtain ⟨hfresh₁, hfresh⟩ := List.forall_mem_cons.mp hfresh
      obtain ⟨hne, hnodup⟩ := List.nodup_cons.mp hnodup
      have hinsert := extends_insert hfresh₁ (.relative offset 0)
      have hready₀ : Ready R n _ :=
        hready.insert habove₁ fun _ _ h cs hcs => (h cs hcs).extend hinsert
      obtain ⟨hext₁, hlaid₁⟩ := place_lays hR hty hsub.1 (by omega) hready₀
      -- the type of this component has given no other component its place
      have hfresh' : ∀ c ∈ comps, c.id ∉ places₁ := by
        intro c hc hin
        rcases (mem_of_place hty _).2 hin with hin | hin
        · rcases Table.mem_insert.mp hin with heq | hin
          · exact hne (List.mem_map.mpr ⟨c, hc, heq.symm⟩)
          · exact hfresh c hc hin
        · obtain ⟨cs, hcs, hmem, -⟩ := Ty.exists_record hin
          have hle := (Ty.components_of_record hcs).length_le
          exact habove c hc cs (hsub.1 hcs) (by omega) hmem
      obtain ⟨hext, hlaid, hlie, last, hlast⟩ := placeFrom_lays hR h hsub.2 (by omega) habove hnodup
        hfresh' (hready₀.place hR hty hsub.1 hext₁ hlaid₁)
      refine ⟨(hinsert.trans hext₁).trans hext, ?_, ?_, last, ?_⟩
      · intro cs hcs
        rw [Component.listRecords, List.mem_append] at hcs
        rcases hcs with hcs | hcs
        · exact (hlaid₁ cs hcs).extend hext
        · exact hlaid cs hcs
      · have hown : places'[id]? = some (.relative offset 0) := by
          rw [(hext₁.trans hext) id Std.ExtTreeMap.mem_insert_self,
            Std.ExtTreeMap.getElem?_insert_self]
        rw [Word.toInt_checkedAdd hnext, ← Ty.bytes_eq hn] at hlie
        exact .cons ⟨offset, size, hown, hn, congrArg (Span.mk _) (Ty.bytes_eq hn)⟩ hlie
      · rw [Component.sizes, hn]
        simp only [bind, Except.bind, hnext, hlast]

end

end Records

/-! ## Laying out a program -/

section Program

variable {R : List (List Component)} {places : Table DeclId Access} {es : List Entry}
  {l l' : Layout} {p : Program}

/-- What is no component may get a place at any time. -/
theorem LaidOut.insert {cs : List Component} (h : LaidOut places cs) {id : DeclId}
    (hid : id ∉ cs.map (·.id)) (a : Access) : LaidOut (places.insert id a) cs := by
  exact h.congr fun c hc =>
    Table.getElem?_insert_of_ne fun heq => hid (heq ▸ List.mem_map_of_mem hc)

/-- Once a list of entries is done, the records in its types are laid out, and those that were are
still. -/
theorem Fills.laidOut {n n' : Names} (hR : Coherent R)
    (hclosed : ∀ cs ∈ R, Component.listRecords cs ⊆ R) (h : Fills es l n l' n')
    (hes : ∀ e ∈ es, Suits R e) (hready : ∀ m, Ready R m l.accesses) :
    (∀ m, Ready R m l'.accesses) ∧
      (∀ cs ∈ R, LaidOut l.accesses cs → LaidOut l'.accesses cs) ∧
      ∀ ty, .type ty ∈ es → ∀ cs ∈ ty.records, LaidOut l'.accesses cs := by
  induction h with
  | nil => exact ⟨hready, fun _ _ hcs => hcs, nofun⟩
  | @type ty _ _ _ _ _ _ hty _ ih =>
    obtain ⟨hsub, hes⟩ := List.forall_mem_cons.mp hes
    obtain ⟨hext, hlaid⟩ := place_lays hR hty hsub (Nat.le_refl _) (hready _)
    obtain ⟨hready', hkeep, hall⟩ := ih hes fun m => (hready m).place hR hty hsub hext hlaid
    refine ⟨hready', fun cs hcs h => hkeep cs hcs (h.extend hext), fun ty' hty' cs hcs => ?_⟩
    rcases List.mem_cons.mp hty' with heq | hty'
    · cases heq
      exact hkeep cs (hsub hcs) (hlaid cs hcs)
    · exact hall ty' hty' cs hcs
  | @var d a _ _ _ _ _ _ ih =>
    obtain ⟨hid, hes⟩ := List.forall_mem_cons.mp hes
    obtain ⟨hready', hkeep, hall⟩ := ih hes fun m => (hready m).insert (fun cs hcs _ => hid cs hcs)
      fun cs hcs h cs' hcs' =>
        (h cs' hcs').insert (hid cs' (List.cons_subset.mpr ⟨hcs, hclosed cs hcs⟩ hcs')) a
    exact ⟨hready', fun cs hcs h => hkeep cs hcs (h.insert (hid cs hcs) a),
      fun ty hty => hall ty ((List.mem_cons.mp hty).resolve_left nofun)⟩
  | literal _ ih =>
    obtain ⟨hready', hkeep, hall⟩ := ih (List.forall_mem_cons.mp hes).2 hready
    exact ⟨hready', hkeep, fun ty hty => hall ty ((List.mem_cons.mp hty).resolve_left nofun)⟩

theorem layout_laidOut {s s' : Session} (h : p.layout s = .ok l s') (hp : p.Separate)
    (hR : Coherent p.records) : ∀ cs ∈ p.records, LaidOut l.accesses cs := by
  intro cs hcs
  obtain ⟨ty, hty, hcsty⟩ := List.mem_flatMap.mp hcs
  obtain ⟨i, hi, hty⟩ := List.mem_flatMap.mp hty
  have hstep : ∀ j ∈ p.items, ∀ {l n l' n'}, Fills j.entries l n l' n' →
      (∀ m, Ready p.records m l.accesses) → (∀ m, Ready p.records m l'.accesses) ∧
        (∀ cs ∈ p.records, LaidOut l.accesses cs → LaidOut l'.accesses cs) ∧
        ∀ ty, .type ty ∈ j.entries → ∀ cs ∈ ty.records, LaidOut l'.accesses cs := by
    intro j hj l n l' n' hfills
    refine hfills.laidOut hR ?_ (item_suits hp hj)
    intro cs hcs cs' hcs'
    obtain ⟨ty, hty, hcs⟩ := List.mem_flatMap.mp hcs
    exact List.mem_flatMap.mpr ⟨ty, hty, Ty.records_of_record hcs hcs'⟩
  obtain ⟨before, after, l₁, s₁, l₂, s₂, hsplit, hbefore, hown, hafter⟩ := layout_split h hi
  obtain ⟨_, l₃, _, frames, hfills, rfl⟩ := item_fills hown
  have hready : ∀ m, Ready p.records m l₁.accesses :=
    forM_item_fills (P := fun l => ∀ m, Ready p.records m l.accesses) (fun _ _ h => h)
      (fun j hj {_ _ _ _} hfills hl => (hstep j (by simp [hsplit, hj]) hfills hl).1) hbefore
      (by simp [Filled])
  obtain ⟨hready, -, hlaid⟩ := hstep i hi hfills hready
  refine (forM_item_fills (P := fun l => (∀ m, Ready p.records m l.accesses) ∧
    LaidOut l.accesses cs) (fun _ _ h => h) (fun j hj {_ _ _ _} hfills hl => ?_) hafter
      ⟨hready, hlaid ty (Item.type_mem_entries.mpr hty) cs hcsty⟩).2
  obtain ⟨hready, hkeep, -⟩ := hstep j (by simp [hsplit, hj]) hfills hl.1
  exact ⟨hready, hkeep cs hcs hl.2⟩

end Program

end Layouting

end MmixBackend
