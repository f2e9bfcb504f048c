import MmixBackend.Proofs.Shape

/-!
# What a layout has entered

Laying out a program fails only when a word leaves its range, and then what it leaves behind is what
the program declares: every variable, parameter and component has a place, of the kind and at the
depth that its declaration says, every function has a frame at its depth, and every literal has an
address.

A record is passed over when its first component has a place already.  That is right because a
component is always one of the same record: by the time one component of a record has a place, all
have one, except for the records around the one at hand, which have more components than it.
-/

namespace MmixBackend

open Typed Build

/-! ## Records -/

namespace Typed

mutual

/-- A component of a type is one of a record in it, with all components of that record. -/
theorem Ty.exists_record {d : DeclId} :
    ∀ {ty : Ty}, d ∈ ty.components → ∃ cs ∈ ty.records, d ∈ cs.map (·.id) ∧
      Component.listComponents cs ⊆ ty.components
  | .ptr elem, h | .array elem _, h => by
    rw [Ty.components] at h ⊢
    rw [Ty.records]
    exact Ty.exists_record h
  | .record comps, h => by
    rw [Ty.components] at h ⊢
    rw [Ty.records]
    rcases Component.exists_record h with hd | ⟨cs, hcs, hd, hsub⟩
    · exact ⟨comps, List.mem_cons_self, hd, List.Subset.refl _⟩
    · exact ⟨cs, List.mem_cons_of_mem _ hcs, hd, hsub⟩
  | .void, h | .char, h | .int, h | .bool, h => by
    rw [Ty.components] at h
    cases h

theorem Component.exists_record {d : DeclId} :
    ∀ {comps : List Component}, d ∈ Component.listComponents comps →
      d ∈ comps.map (·.id) ∨ ∃ cs ∈ Component.listRecords comps, d ∈ cs.map (·.id) ∧
        Component.listComponents cs ⊆ Component.listComponents comps
  | [], h => by cases h
  | ⟨id, _, ty⟩ :: comps, h => by
    simp only [Component.listComponents, Component.listRecords, List.map_cons, List.mem_cons,
      List.mem_append] at h ⊢
    rcases h with rfl | h | h
    · exact Or.inl (Or.inl rfl)
    · obtain ⟨cs, hcs, hd, hsub⟩ := Ty.exists_record h
      exact Or.inr ⟨cs, Or.inl hcs, hd, fun c hc => by simp [hsub hc]⟩
    · rcases Component.exists_record h with hd | ⟨cs, hcs, hd, hsub⟩
      · exact Or.inl (Or.inr hd)
      · exact Or.inr ⟨cs, Or.inr hcs, hd, fun c hc => by simp [hsub hc]⟩

end

mutual

theorem Ty.components_of_record {cs : List Component} :
    ∀ {ty : Ty}, cs ∈ ty.records → List.Sublist (Component.listComponents cs) ty.components
  | .ptr elem, h | .array elem _, h => by
    rw [Ty.records] at h
    rw [Ty.components]
    exact Ty.components_of_record h
  | .record comps, h => by
    rw [Ty.records] at h
    rw [Ty.components]
    rcases List.mem_cons.mp h with rfl | h
    · exact List.Sublist.refl _
    · exact Component.components_of_record h
  | .void, h | .char, h | .int, h | .bool, h => by
    rw [Ty.records] at h
    cases h

theorem Component.components_of_record {cs : List Component} :
    ∀ {comps : List Component}, cs ∈ Component.listRecords comps →
      List.Sublist (Component.listComponents cs) (Component.listComponents comps)
  | [], h => by cases h
  | ⟨id, _, ty⟩ :: comps, h => by
    rw [Component.listRecords, List.mem_append] at h
    rw [Component.listComponents]
    refine List.Sublist.cons _ ?_
    rcases h with h | h
    · exact (Ty.components_of_record h).trans (List.sublist_append_left _ _)
    · exact (Component.components_of_record h).trans (List.sublist_append_right _ _)

end

/-- What a record lists first are its own components. -/
theorem Component.map_id_subset (comps : List Component) :
    comps.map (·.id) ⊆ Component.listComponents comps := by
  induction comps with
  | nil => exact List.Subset.refl _
  | cons c comps ih =>
    obtain ⟨id, _, ty⟩ := c
    rw [List.map_cons, Component.listComponents]
    exact List.cons_subset_cons _ fun d hd => List.mem_append_right _ (ih hd)

end Typed

namespace Layouting

/-! ## Components -/

/-- Of the records with at most `n` components, each that has a place for one of its own is done. -/
def Filled (Done : Table DeclId Access → List Component → Prop) (R : List (List Component)) (n : Nat)
    (places : Table DeclId Access) : Prop :=
  ∀ cs ∈ R, (Component.listComponents cs).length ≤ n → ∀ d ∈ cs.map (·.id), d ∈ places →
    Done places cs

/-- Records have places for all of their components or for none of their own. -/
abbrev Whole : List (List Component) → Nat → Table DeclId Access → Prop :=
  Filled fun places cs => ∀ d ∈ Component.listComponents cs, d ∈ places

section Whole

variable {Done : Table DeclId Access → List Component → Prop} {R : List (List Component)}
  {n m : Nat} {places places' : Table DeclId Access}

theorem Filled.mono (h : Filled Done R n places) (hm : m ≤ n) : Filled Done R m places :=
  fun cs hcs hle => h cs hcs (Nat.le_trans hle hm)

/-- A declaration gets a place that is no component of a record with at most `n` components. -/
theorem Filled.insert (h : Filled Done R n places) {id : DeclId} {a : Access}
    (hid : ∀ cs ∈ R, (Component.listComponents cs).length ≤ n → id ∉ cs.map (·.id))
    (hdone : ∀ cs ∈ R, Done places cs → Done (places.insert id a) cs) :
    Filled Done R n (places.insert id a) := by
  intro cs hcs hle d hd hin
  rcases Table.mem_insert.mp hin with rfl | hin
  · exact absurd hd (hid cs hcs hle)
  · exact hdone cs hcs (h cs hcs hle d hd hin)

theorem Filled.extend (h : Filled Done R n places) {new : List DeclId}
    (hnew : ∀ d ∈ places', d ∈ places ∨ d ∈ new)
    (hdone : ∀ cs, Done places cs → Done places' cs)
    (hown : ∀ cs ∈ R, ∀ d ∈ cs.map (·.id), d ∈ new → Done places' cs) : Filled Done R n places' :=
  fun cs hcs hle d hd hin =>
    (hnew d hin).elim (fun hin => hdone cs (h cs hcs hle d hd hin)) (hown cs hcs d hd)

theorem Whole.insert (h : Whole R n places) {id : DeclId}
    (hid : ∀ cs ∈ R, (Component.listComponents cs).length ≤ n → id ∉ cs.map (·.id)) (a : Access) :
    Whole R n (places.insert id a) :=
  Filled.insert h hid fun _ _ h d hd => Table.mem_insert.mpr (Or.inr (h d hd))

/-- What had a place has one, and what has a place had it or got it. -/
theorem mem_of_cases {new : List DeclId} {d : DeclId} (h : places'[d]? = places[d]? ∨
    d ∈ new ∧ ∃ offset, places'[d]? = some (.relative offset 0)) :
    (d ∈ places → d ∈ places') ∧ (d ∈ places' → d ∈ places ∨ d ∈ new) := by
  simp only [Std.ExtTreeMap.mem_iff_isSome_getElem?]
  rcases h with hsame | ⟨hd, offset, hrel⟩
  · rw [hsame]
    exact ⟨id, Or.inl⟩
  · rw [hrel]
    exact ⟨fun _ => rfl, fun _ => Or.inr hd⟩

theorem mem_of_place {ty : Ty} (h : ty.place places = .ok places') (d : DeclId) :
    (d ∈ places → d ∈ places') ∧ (d ∈ places' → d ∈ places ∨ d ∈ ty.components) :=
  mem_of_cases (place_cases h)

theorem mem_of_placeFrom {comps : List Component} {offset : Word}
    (h : Component.placeFrom offset comps places = .ok places') (d : DeclId) :
    (d ∈ places → d ∈ places') ∧
      (d ∈ places' → d ∈ places ∨ d ∈ Component.listComponents comps) :=
  mem_of_cases (placeFrom_cases h)

mutual

/-- Placing a type places all of its components. -/
theorem place_whole (hR : Apart R) :
    ∀ {ty : Ty} {n : Nat} {places places' : Table DeclId Access}, ty.place places = .ok places' →
      ty.records ⊆ R → ty.components.length ≤ n → Whole R n places →
      Whole R n places' ∧ ∀ d ∈ ty.components, d ∈ places'
  | .ptr elem, _, _, _, h, hsub, hlen, hw | .array elem _, _, _, _, h, hsub, hlen, hw => by
    rw [Ty.place] at h
    rw [Ty.records] at hsub
    rw [Ty.components] at hlen ⊢
    exact place_whole hR h hsub hlen hw
  | .record comps, n, places, places', h, hsub, hlen, hw => by
    rw [Ty.place] at h
    rw [Ty.records] at hsub
    rw [Ty.components] at hlen ⊢
    obtain ⟨hown, hsub⟩ := List.cons_subset.mp hsub
    split at h
    · -- the first component has a place, so all have
      next hfirst =>
        cases h
        refine ⟨hw, ?_⟩
        cases comps with
        | nil => simp at hfirst
        | cons c cs => exact hw _ hown hlen c.id (by simp) (by simpa using hfirst)
    · have hall : ∀ d ∈ Component.listComponents comps, d ∈ places' := by
        cases hm : (Component.listComponents comps).length with
        | zero => simp [List.length_eq_zero_iff.mp hm]
        | succ m =>
          refine (placeFrom_whole hR (n := m) h hsub hm.le ?_ (hw.mono (by omega))).2
          -- a record with fewer components has none of these
          intro c hc cs hcs hle hmem
          have := hR comps hown cs hcs c.id (List.mem_map_of_mem hc) hmem
          rw [this] at hm
          omega
      refine ⟨hw.extend (fun d => (mem_of_placeFrom h d).2)
        (fun cs hcs d hd => (mem_of_placeFrom h d).1 (hcs d hd))
        fun cs hcs d hd hin d' hd' => ?_, hall⟩
      rcases Component.exists_record hin with hin | ⟨cs', hcs', hin, hsub'⟩
      · rw [hR cs hcs comps hown d hd hin] at hd'
        exact hall d' hd'
      · rw [hR cs hcs cs' (hsub hcs') d hd hin] at hd'
        exact hall d' (hsub' hd')
  | .void, _, _, _, h, _, _, hw | .char, _, _, _, h, _, _, hw | .int, _, _, _, h, _, _, hw
  | .bool, _, _, _, h, _, _, hw => by
    rw [Ty.place] at h
    cases h
    exact ⟨hw, by simp [Ty.components]⟩

theorem placeFrom_whole (hR : Apart R) :
    ∀ {comps : List Component} {n : Nat} {offset : Word} {places places' : Table DeclId Access},
      Component.placeFrom offset comps places = .ok places' → Component.listRecords comps ⊆ R →
      (Component.listComponents comps).length ≤ n + 1 →
      (∀ c ∈ comps, ∀ cs ∈ R, (Component.listComponents cs).length ≤ n → c.id ∉ cs.map (·.id)) →
      Whole R n places →
      Whole R n places' ∧ ∀ d ∈ Component.listComponents comps, d ∈ places'
  | [], _, _, _, _, h, _, _, _, hw => by
    rw [Component.placeFrom] at h
    cases h
    exact ⟨hw, by simp [Component.listComponents]⟩
  | ⟨id, name, ty⟩ :: comps, n, offset, places, places', h, hsub, hlen, habove, hw => by
    obtain ⟨places₁, -, next, hty, -, -, hrest⟩ := placeFrom_cons h
    rw [Component.listRecords, List.append_subset] at hsub
    rw [Component.listComponents, List.length_cons, List.length_append] at hlen
    obtain ⟨hfirst, habove⟩ := List.forall_mem_cons.mp habove
    obtain ⟨hw₁, hin₁⟩ := place_whole hR hty hsub.1 (by omega) (hw.insert hfirst _)
    obtain ⟨hw', hin'⟩ := placeFrom_whole hR hrest hsub.2 (by omega) habove hw₁
    refine ⟨hw', fun d hd => ?_⟩
    rw [Component.listComponents, List.mem_cons, List.mem_append] at hd
    rcases hd with rfl | hd | hd
    · exact (mem_of_placeFrom hrest _).1 ((mem_of_place hty _).1 Std.ExtTreeMap.mem_insert_self)
    · exact (mem_of_placeFrom hrest d).1 (hin₁ d hd)
    · exact hin' d hd

end

end Whole

/-! ## Entries -/

/-- The entry is for a type with these records, or for a variable that is no component of them. -/
def Suits (R : List (List Component)) : Entry → Prop
  | .type ty => ty.records ⊆ R
  | .var d _ => ∀ cs ∈ R, d ∉ cs.map (·.id)
  | .literal .. => True

/-- Entries that suit records leave them whole and place all components. -/
theorem Fills.whole {R : List (List Component)} {es : List Entry} {l l' : Layout} {n n' : Names}
    (hR : Apart R) (h : Fills es l n l' n') (hes : ∀ e ∈ es, Suits R e)
    (hl : ∀ m, Whole R m l.accesses) :
    (∀ m, Whole R m l'.accesses) ∧
      ∀ ty, .type ty ∈ es → ∀ d ∈ ty.components, d ∈ l'.accesses := by
  induction h with
  | nil => exact ⟨hl, nofun⟩
  | @type ty _ _ _ _ _ _ hty hrest ih =>
    obtain ⟨hsub, hes⟩ := List.forall_mem_cons.mp hes
    obtain ⟨hw, hin⟩ := ih hes fun m =>
      (place_whole hR hty hsub (Nat.le_max_right m _) (hl _)).1.mono (Nat.le_max_left _ _)
    refine ⟨hw, fun ty' hmem d hd => ?_⟩
    rcases List.mem_cons.mp hmem with heq | hmem
    · cases heq
      exact hrest.mem_accesses ((place_whole hR hty hsub (Nat.le_refl _) (hl _)).2 d hd)
    · exact hin ty' hmem d hd
  | var _ ih =>
    obtain ⟨hown, hes⟩ := List.forall_mem_cons.mp hes
    obtain ⟨hw, hin⟩ := ih hes fun m => (hl m).insert (fun cs hcs _ => hown cs hcs) _
    exact ⟨hw, fun ty h => hin ty ((List.mem_cons.mp h).resolve_left nofun)⟩
  | literal _ ih =>
    obtain ⟨hw, hin⟩ := ih (List.forall_mem_cons.mp hes).2 hl
    exact ⟨hw, fun ty h => hin ty ((List.mem_cons.mp h).resolve_left nofun)⟩

section Items

variable {p : Program} {i : Item}

theorem component_mem {cs : List Component} (hcs : cs ∈ p.records) {d : DeclId}
    (hd : d ∈ cs.map (·.id)) : d ∈ p.components := by
  obtain ⟨ty, hty, hcs⟩ := List.mem_flatMap.mp hcs
  exact List.mem_flatMap.mpr
    ⟨ty, hty, (Ty.components_of_record hcs).subset (Component.map_id_subset cs hd)⟩

theorem map_varPlaces (p : Program) : p.varPlaces.map (·.1) = p.vars.map (·.1) := by
  simp only [Program.varPlaces, Program.vars, List.map_flatMap, Item.places, List.map_map]
  rfl

theorem var_mem_places (hi : i ∈ p.items) {v : DeclId × Ty} (hv : v ∈ i.vars) :
    (v.1, i.depth?) ∈ p.varPlaces :=
  List.mem_flatMap.mpr ⟨i, hi, List.mem_map_of_mem hv⟩

/-- What a program declares is what its items are given. -/
theorem mem_places_iff {d : DeclId} {k : Option Nat} :
    (d, k) ∈ p.places ↔ ∃ i ∈ p.items, Gives i.entries d k := by
  simp only [Program.places, Program.varPlaces, Program.components, Program.types, Item.places,
    List.mem_append, List.mem_flatMap, List.mem_map, Gives, Item.var_mem_entries,
    Item.type_mem_entries, Prod.mk.injEq]
  constructor
  · rintro (⟨i, hi, v, hv, rfl, rfl⟩ | ⟨c, ⟨ty, ⟨i, hi, hty⟩, hc⟩, rfl, rfl⟩)
    · exact ⟨i, hi, Or.inl ⟨⟨v, hv, rfl⟩, rfl⟩⟩
    · exact ⟨i, hi, Or.inr ⟨rfl, ty, hty, hc⟩⟩
  · rintro ⟨i, hi, ⟨⟨v, hv, rfl⟩, rfl⟩ | ⟨rfl, ty, hty, hc⟩⟩
    · exact Or.inl ⟨i, hi, v, hv, rfl, rfl⟩
    · exact Or.inr ⟨d, ⟨ty, ⟨i, hi, hty⟩, hc⟩, rfl, rfl⟩

theorem item_suits (hp : p.Separate) (hi : i ∈ p.items) : ∀ e ∈ i.entries, Suits p.records e
  | .type ty, hty => fun _ hcs => List.mem_flatMap.mpr
    ⟨ty, List.mem_flatMap.mpr ⟨i, hi, Item.type_mem_entries.mp hty⟩, hcs⟩
  | .var d k, hd => fun cs hcs hc => by
    obtain ⟨v, hv, rfl⟩ := List.mem_map.mp (Item.var_mem_entries.mp hd).1
    exact hp.components _ (component_mem hcs hc)
      (List.mem_map_of_mem (List.mem_flatMap.mpr ⟨i, hi, hv⟩))
  | .literal .., _ => trivial

/-- The entries of an item of the program leave its records whole. -/
theorem item_whole (hp : p.Distinct) (hi : i ∈ p.items) {l l' : Layout} {n n' : Names}
    (h : Fills i.entries l n l' n') (hl : ∀ m, Whole p.records m l.accesses) :
    (∀ m, Whole p.records m l'.accesses) ∧
      ∀ ty, .type ty ∈ i.entries → ∀ d ∈ ty.components, d ∈ l'.accesses := by
  exact h.whole hp.records (item_suits hp.toSeparate hi) hl

/-- What an item is given has a place in the finished layout, and its literals have addresses. -/
theorem layout_entered (hp : p.Distinct) {s s' : Session} {l : Layout}
    (h : p.layout s = .ok l s') (hi : i ∈ p.items) :
    (∀ d k, Gives i.entries d k → d ∈ l.accesses) ∧ ∀ node text, .literal node text ∈ i.entries →
      ∃ label size init, l.literals[node.id]? = some (.absolute label size init) := by
  obtain ⟨before, after, l₁, s₁, l₂, s₂, hsplit, hbefore, hown, hafter⟩ := layout_split h hi
  obtain ⟨_, l₃, _, frames, hfills, rfl⟩ := item_fills hown
  have hsub : before ⊆ p.items := hsplit ▸ List.subset_append_left _ _
  have hwhole : ∀ m, Whole p.records m l₁.accesses :=
    forM_item_fills (P := fun l => ∀ m, Whole p.records m l.accesses) (fun _ _ h => h)
      (fun j hj {_ _ _ _} hfills hl => (item_whole hp (hsub hj) hfills hl).1) hbefore (by simp [Filled])
  refine ⟨fun d k hd => ?_, fun node text hlit => ?_⟩
  · refine forM_item_fills (P := fun l => d ∈ l.accesses) (fun _ _ h => h)
      (fun _ _ {_ _ _ _} hfills hl => hfills.mem_accesses hl) hafter ?_
    rcases hd with hvar | ⟨-, ty, hty, hd⟩
    · exact hfills.entered.1 d k hvar
    · exact (item_whole hp hi hfills hwhole).2 ty hty d hd
  · exact forM_item_fills (P := fun l => ∃ label size init,
      l.literals[node.id]? = some (.absolute label size init)) (fun _ _ h => h)
      (fun _ _ {_ _ _ _} hfills hl => hfills.literal_kept hl) hafter
      (hfills.entered.2 node text hlit)

theorem exists_literal {n : NodeId} (h : n ∈ i.literals) :
    ∃ node text, .literal node text ∈ i.entries ∧ node.id = n := by
  obtain ⟨e, he, hn⟩ := List.mem_flatMap.mp h
  cases i with
  | var v => cases he
  | function around head body =>
    unfold Expr.literals at hn
    split at hn
    · next node text =>
      refine ⟨node, text, ?_, (List.mem_singleton.mp hn).symm⟩
      exact List.mem_append_right _ (List.mem_cons_of_mem _
        (List.mem_flatMap.mpr ⟨_, he, List.mem_cons_of_mem _ List.mem_cons_self⟩))
    · cases hn

end Items

/-! ## The finished layout -/

/-- A layout has what the program declares, and nothing else. -/
structure Recorded (p : Program) (l : Layout) : Prop where
  access : ∀ ⦃d : DeclId⦄ ⦃k : Option Nat⦄, (d, k) ∈ p.places →
    ∃ a, l.accesses[d]? = some a ∧ a.depth? = k
  declared : ∀ ⦃d : DeclId⦄ ⦃a : Access⦄, l.accesses[d]? = some a → (d, a.depth?) ∈ p.places
  frame : ∀ ⦃f : DeclId⦄ ⦃k : Nat⦄, (f, k) ∈ p.depths →
    ∃ frame, l.frames[f]? = some frame ∧ frame.depth = k
  framed : ∀ ⦃f : DeclId⦄ ⦃frame : Frame⦄, l.frames[f]? = some frame → (f, frame.depth) ∈ p.depths
  literal : ∀ i ∈ p.items, ∀ n ∈ i.literals,
    ∃ label size init, l.literals[n]? = some (.absolute label size init)

section Recorded

variable {p : Program}

/-- A declaration is at one depth. -/
theorem places_inj (hp : p.Distinct) {d : DeclId} {k k' : Option Nat} (h : (d, k) ∈ p.places)
    (h' : (d, k') ∈ p.places) : k = k' := by
  have hvar : ∀ {k : Option Nat}, (d, k) ∈ p.varPlaces → d ∈ p.vars.map (·.1) := fun h =>
    map_varPlaces p ▸ List.mem_map_of_mem (f := Prod.fst) h
  have hcomp : ∀ {k : Option Nat}, (d, k) ∈ p.components.map (·, some 0) →
      d ∈ p.components ∧ k = some 0 := by
    intro k hk
    obtain ⟨c, hc, heq⟩ := List.mem_map.mp hk
    cases heq
    exact ⟨hc, rfl⟩
  rcases List.mem_append.mp h with h | h <;> rcases List.mem_append.mp h' with h' | h'
  · have hnd : (p.varPlaces.map (·.1)).Nodup := map_varPlaces p ▸ hp.vars
    exact congrArg Prod.snd (List.inj_on_of_nodup_map hnd h h' rfl)
  · exact absurd (hvar h) (hp.components d (hcomp h').1)
  · exact absurd (hvar h') (hp.components d (hcomp h).1)
  · rw [(hcomp h).2, (hcomp h').2]

theorem mem_depths {f : DeclId} {k : Nat} :
    (f, k) ∈ p.depths ↔ ∃ around head body, Item.function around head body ∈ p.items ∧
      head.id = f ∧ around.length = k := by
  rw [Program.depths, List.mem_filterMap]
  constructor
  · rintro ⟨i, hi, heq⟩
    cases i with
    | var v => cases heq
    | function around head body =>
      cases heq
      exact ⟨around, head, body, hi, rfl, rfl⟩
  · rintro ⟨around, head, body, hi, rfl, rfl⟩
    exact ⟨_, hi, rfl⟩

/-- Laying out a program stops only at words out of range, and leaves what the program declares. -/
theorem layout_recorded (hp : p.Distinct) : Decides p.layout True (Recorded p) := by
  have hstops : Decides p.layout True fun _ => True := by
    unfold Program.layout
    rw [forM_decl_eq]
    exact (stops_items p.items {}).map fun _ _ => trivial
  refine hstops.run.imp Iff.rfl ?_
  rintro l ⟨-, s, s', hrun⟩
  have hsound : ∀ ⦃d : DeclId⦄ ⦃a : Access⦄, l.accesses[d]? = some a → (d, a.depth?) ∈ p.places :=
    fun d a ha => mem_places_iff.mpr (layout_access hrun ha)
  refine ⟨fun d k hk => ?_, hsound, fun f k hf => ?_, fun f frame hf => ?_, fun i hi n hn => ?_⟩
  · obtain ⟨i, hi, hd⟩ := mem_places_iff.mp hk
    have hin := (layout_entered hp hrun hi).1 d k hd
    rw [Std.ExtTreeMap.mem_iff_isSome_getElem?] at hin
    obtain ⟨a, ha⟩ := Option.isSome_iff_exists.mp hin
    exact ⟨a, ha, places_inj hp (hsound ha) hk⟩
  · obtain ⟨around, head, body, hi, rfl, rfl⟩ := mem_depths.mp hf
    obtain ⟨frame, hframe, hmade⟩ := layout_frame hrun hp.functions hi
    exact ⟨frame, hframe, hmade.depth⟩
  · obtain ⟨around, head, body, hi, rfl, hmade⟩ := layout_framed hrun hf
    exact mem_depths.mpr ⟨around, head, body, hi, rfl, hmade.depth.symm⟩
  · obtain ⟨node, text, hlit, rfl⟩ := exists_literal hn
    exact (layout_entered hp hrun hi).2 node text hlit

end Recorded

end Layouting

end MmixBackend
