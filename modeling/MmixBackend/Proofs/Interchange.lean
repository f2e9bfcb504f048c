import MmixBackend.Proofs.Format
import MmixBackend.Typed.Decode

/-!
# Programs as JSON lose nothing

Reading succeeds exactly on the ways to write a tree, with that tree as its result
(`Program.ofJson?_eq_some`).  So a program is read back from what is written of it.
-/

namespace MmixBackend

namespace Json

/-! ## Looking into a value finds its shape -/

section Shapes

variable {j : Json} {name tag : String} {P : Json → Prop} {missing : Prop}

theorem named_eq_some {ps : List j.Part} :
    j.named name = some ps ↔ ∃ ms, j = .obj ms ∧ under name ms = ps.map (·.1) := by
  cases j with
  | obj ms =>
    have hfound : (ms.attach.filterMap fun m =>
        if m.1.1 = name then some (⟨m.1.2, sizeOf_member m.2⟩ : (Json.obj ms).Part) else none).map
          (·.1) = under name ms := by
      rw [List.map_filterMap, List.filterMap_subtype
        (g := fun m : String × Json => if m.1 = name then some m.2 else none),
        List.unattach_attach]
      · rfl
      · intro m hm
        dsimp only
        split <;> rfl
    have hinj : Function.Injective (List.map fun p : (Json.obj ms).Part => p.1) :=
      List.map_injective_iff.mpr Subtype.val_injective
    rw [named, Option.some.injEq]
    constructor
    · rintro rfl
      exact ⟨ms, rfl, hfound.symm⟩
    · rintro ⟨ms', hms, h⟩
      cases hms
      exact hinj (hfound.trans h)
  | null | bool | int | str | unusable | arr => simp [named]

theorem field_eq_some {p : j.Part} : j.field name = some p ↔ j.named name = some [p] := by
  rw [field]
  split <;> simp_all

theorem field?_eq_some {p : j.Part} :
    j.field? name = some (some p) ↔ j.named name = some [p] := by
  rw [field?]
  split <;> simp_all

theorem field?_eq_none : j.field? name = some none ↔ j.named name = some [] := by
  rw [field?]
  split <;> simp_all

theorem at_iff_named : At name P j ↔ ∃ v h, j.named name = some [⟨v, h⟩] ∧ P v := by
  constructor
  · rintro ⟨ms, v, rfl, hv, hP⟩
    have hlt : sizeOf v < sizeOf (Json.obj ms) := by
      have hmem : v ∈ under name ms := hv ▸ List.mem_singleton_self v
      obtain ⟨m, hm, h⟩ := List.mem_filterMap.mp hmem
      split at h
      · cases h
        exact sizeOf_member hm
      · cases h
    exact ⟨v, hlt, named_eq_some.mpr ⟨ms, rfl, hv⟩, hP⟩
  · rintro ⟨v, hlt, hnamed, hP⟩
    obtain ⟨ms, rfl, hv⟩ := named_eq_some.mp hnamed
    exact ⟨ms, v, rfl, hv, hP⟩

theorem at_iff : At name P j ↔ ∃ v h, j.field name = some ⟨v, h⟩ ∧ P v := by
  simp only [at_iff_named, field_eq_some]

theorem atOr_iff : AtOr name missing P j ↔
    (∃ v h, j.field? name = some (some ⟨v, h⟩) ∧ P v) ∨ j.field? name = some none ∧ missing := by
  have hnone : (∃ ms, j = .obj ms ∧ under name ms = [] ∧ missing) ↔
      j.named name = some [] ∧ missing := by
    rw [named_eq_some]
    simp only [List.map_nil, ← and_assoc, exists_and_right]
  rw [AtOr, hnone, at_iff_named]
  simp only [field?_eq_some, field?_eq_none]

theorem items_iff {P : List Json → Prop} :
    Items P j ↔ ∃ ps, j.items = some ps ∧ P ps.unattach := by
  cases j with
  | arr vs =>
    have hitems : (vs.attach.map fun v =>
        (⟨v.1, sizeOf_item v.2⟩ : (Json.arr vs).Part)).unattach = vs := by
      rw [List.unattach, List.map_map]
      exact List.attach_map_subtype_val vs
    constructor
    · rintro ⟨vs', hvs, hP⟩
      cases hvs
      exact ⟨_, rfl, hitems.symm ▸ hP⟩
    · rintro ⟨ps, hps, hP⟩
      cases hps
      exact ⟨vs, rfl, hitems ▸ hP⟩
  | null | bool | int | str | unusable | obj => simp [Items, items]

theorem tagged_iff : Tagged tag P j ↔ ∃ v h, j.variant = some (tag, ⟨v, h⟩) ∧ P v := by
  constructor
  · rintro ⟨v, rfl, hP⟩
    exact ⟨v, _, rfl, hP⟩
  · rintro ⟨v, hlt, hvariant, hP⟩
    unfold variant at hvariant
    split at hvariant
    · cases hvariant
      exact ⟨v, rfl, hP⟩
    · cases hvariant

theorem at_tagged_iff : At name (Tagged tag P) j ↔ ∃ v hv p hp,
    j.field name = some ⟨v, hv⟩ ∧ v.variant = some (tag, ⟨p, hp⟩) ∧ P p := by
  simp only [at_iff, tagged_iff]
  constructor
  · rintro ⟨v, hv, hfield, p, hp, hvariant, hP⟩
    exact ⟨v, hv, p, hp, hfield, hvariant, hP⟩
  · rintro ⟨v, hv, p, hp, hfield, hvariant, hP⟩
    exact ⟨v, hv, hfield, p, hp, hvariant, hP⟩

theorem choice_iff : Choice name j ↔ j.unitVariant = some name := by
  constructor
  · rintro (rfl | rfl) <;> rfl
  · intro h
    unfold unitVariant at h
    split at h
    · cases h
      exact .inl rfl
    · cases h
      exact .inr rfl
    · cases h

theorem bind_unitVariant_eq_some {α : Type} {f : String → Option α} {g : α → String} {x : α}
    (h : ∀ {s}, f s = some x ↔ s = g x) : (j.unitVariant >>= f) = some x ↔ Choice (g x) j := by
  rw [choice_iff, Option.bind_eq_bind, Option.bind_eq_some_iff]
  simp only [h, exists_eq_right]

/-- A choice with content under a name is no choice without content of another name. -/
theorem unitVariant_obj {α : Type} {f : String → Option α} {v : Json} (h : f tag = none) :
    (Json.obj [(tag, v)]).unitVariant >>= f = none := by
  unfold unitVariant
  split
  · simp_all
  · simp_all
  · rfl

theorem number_iff {low high n : Int} : Number low high n j ↔ j.intIn? low high = some n := by
  cases j with
  | int m =>
    rw [intIn?, Option.ite_none_right_eq_some, Option.some.injEq]
    constructor
    · rintro ⟨hm, hrange⟩
      cases hm
      exact ⟨hrange, rfl⟩
    · rintro ⟨hrange, rfl⟩
      exact ⟨rfl, hrange⟩
  | null | bool | str | unusable | arr | obj => simp [Number, intIn?]

theorem nat?_eq_some {bound n : Nat} : j.nat? bound = some n ↔ Number 0 bound n j := by
  rw [nat?, Option.map_eq_some_iff, number_iff]
  constructor
  · rintro ⟨m, hm, rfl⟩
    obtain ⟨-, hlow, -⟩ := number_iff.mpr hm
    rw [hm, Int.toNat_of_nonneg hlow]
  · intro h
    exact ⟨n, h, rfl⟩

theorem exists_nat?_iff {α : Type} {bound : Nat} {f : Nat → α} {g : α → Nat} {x : α}
    (hg : ∀ n < bound, g (f n) = n) (hf : f (g x) = x) :
    (∃ n, j.nat? bound = some n ∧ f n = x) ↔ Number 0 bound (g x) j := by
  simp only [nat?_eq_some]
  constructor
  · rintro ⟨n, hn, rfl⟩
    rwa [hg n (Int.ofNat_lt.mp hn.2.2)]
  · intro h
    exact ⟨g x, h, hf⟩

theorem word?_eq_some {w : Word} : j.word? = some w ↔ Number (-2 ^ 63) (2 ^ 63) w.toInt j := by
  rw [word?, Option.map_eq_some_iff]
  constructor
  · rintro ⟨n, hn, rfl⟩
    have hnumber := number_iff.mpr hn
    rwa [Int64.toInt_ofInt_of_le hnumber.2.1 hnumber.2.2]
  · intro h
    exact ⟨w.toInt, number_iff.mp h, Int64.ofInt_toInt w⟩

theorem text?_eq_some {s : String} : j.text? = some s ↔ Text s j := by
  cases j <;> simp [text?, Text]

theorem bool?_eq_some {b : Bool} : j.bool? = some b ↔ j = .bool b := by
  cases j <;> simp [bool?]

section Readers

variable {α : Type} {x : α} (read : Json → Option α)

theorem bind_field_eq_some :
    (j.field name >>= fun p => read p.1) = some x ↔ At name (fun v => read v = some x) j := by
  rw [at_iff]
  exact Option.bind_eq_some_iff.trans Subtype.exists

theorem bind_choice_eq_some {f : String → Option α} {g : α → String}
    (h : ∀ {s}, f s = some x ↔ s = g x) :
    (j.field name >>= fun p => p.1.unitVariant >>= f) = some x ↔ At name (Choice (g x)) j :=
  (bind_field_eq_some fun v => v.unitVariant >>= f).trans
    (by simp only [bind_unitVariant_eq_some h])

theorem mapM_eq_some {β : Type} {f : β → Option α} {ys : List β} {xs : List α} :
    ys.mapM f = some xs ↔ List.Forall₂ (fun x y => f y = some x) xs ys := by
  induction ys generalizing xs with
  | nil => simp
  | cons y ys ih =>
    rw [List.mapM_cons, List.forall₂_cons_right_iff]
    simp only [Option.bind_eq_bind, Option.bind_eq_some_iff, ih, Option.pure_def,
      Option.some.injEq]
    constructor
    · rintro ⟨x, hx, xs', hxs, rfl⟩
      exact ⟨x, xs', hx, hxs, rfl⟩
    · rintro ⟨x, xs', hx, hxs, rfl⟩
      exact ⟨x, hx, xs', hxs, rfl⟩

theorem mapM_parts (ps : List j.Part) :
    (ps.mapM fun p => read p.1) = ps.unattach.mapM read :=
  List.mapM_subtype fun _ _ => rfl

/-- Parts are read exactly if smaller values are. -/
theorem mapM_parts_eq_some {read : Json → Option α} {R : α → Json → Prop} {ps : List j.Part}
    {xs : List α} (hread : ∀ {v}, sizeOf v < sizeOf j → ∀ {x}, read v = some x ↔ R x v) :
    ps.unattach.mapM read = some xs ↔ List.Forall₂ R xs ps.unattach := by
  rw [← mapM_parts, mapM_eq_some, List.unattach, List.forall₂_map_right_iff]
  constructor
  · exact fun h => h.imp fun x p => (hread p.2).mp
  · exact fun h => h.imp fun x p => (hread p.2).mpr

/-- What is said of lists item by item, by recursion. -/
theorem forall₂_of_recursion {β : Type} {R : α → β → Prop} {Rs : List α → List β → Prop}
    (hnil : ∀ ys, Rs [] ys ↔ ys = [])
    (hcons : ∀ x xs ys, Rs (x :: xs) ys ↔ ∃ y ys', ys = y :: ys' ∧ R x y ∧ Rs xs ys')
    {xs : List α} {ys : List β} : Rs xs ys ↔ List.Forall₂ R xs ys := by
  induction xs generalizing ys with
  | nil => rw [hnil, List.forall₂_nil_left_iff]
  | cons x xs ih =>
    rw [hcons, List.forall₂_cons_left_iff]
    constructor
    · rintro ⟨y, ys', rfl, hx, hxs⟩
      exact ⟨y, ys', hx, ih.mp hxs, rfl⟩
    · rintro ⟨y, ys', hx, hxs, rfl⟩
      exact ⟨y, ys', rfl, hx, ih.mpr hxs⟩

end Readers

end Shapes

end Json

open Json (At AtOr Choice Tagged Items Text Number)

namespace Typed

theorem Component.forms_iff {cs : List Component} {js : List Json} :
    Component.Forms cs js ↔ List.Forall₂ Component.Form cs js :=
  Json.forall₂_of_recursion (fun _ => Iff.rfl) fun ⟨_, _, _⟩ _ _ => Iff.rfl

theorem Expr.forms_iff {es : List Expr} {js : List Json} :
    Expr.Forms es js ↔ List.Forall₂ Expr.Form es js :=
  Json.forall₂_of_recursion (fun _ => Iff.rfl) fun _ _ _ => Iff.rfl

theorem Stmt.forms_iff {ss : List Stmt} {js : List Json} :
    Stmt.Forms ss js ↔ List.Forall₂ Stmt.Form ss js :=
  Json.forall₂_of_recursion (fun _ => Iff.rfl) fun _ _ _ => Iff.rfl

theorem Decl.forms_iff {ds : List Decl} {js : List Json} :
    Decl.Forms ds js ↔ List.Forall₂ Decl.Form ds js :=
  Json.forall₂_of_recursion (fun _ => Iff.rfl) fun _ _ _ => Iff.rfl

/-! ## Reading types -/

section Reading

variable {j : Json}

theorem declOf?_eq_some {d : DeclId} : declOf? j = some d ↔ d.Form j := by
  rw [declOf?, Option.map_eq_some_iff]
  exact Json.exists_nat?_iff (g := fun d : DeclId => d.number.toNat)
    (fun n hn => UInt32.toNat_ofNat_of_lt' hn) (by simp)

theorem nodeOf?_eq_some {n : NodeId} : nodeOf? j = some n ↔ n.Form j := by
  rw [nodeOf?, Option.map_eq_some_iff]
  exact Json.exists_nat?_iff (g := fun n : NodeId => n.number.toNat)
    (fun n hn => UInt32.toNat_ofNat_of_lt' hn) (by simp)

theorem nameOf?_eq_some {s : String} : nameOf? j = some s ↔ At "name" (Text s) j :=
  (Json.bind_field_eq_some Json.text?).trans (by simp only [Json.text?_eq_some])

theorem declAt?_eq_some {name : String} {d : DeclId} :
    declAt? j name = some d ↔ At name d.Form j :=
  (Json.bind_field_eq_some declOf?).trans (by simp only [declOf?_eq_some])

theorem idOf?_eq_some {d : DeclId} : idOf? j = some d ↔ At "id" d.Form j := declAt?_eq_some

theorem Ty.form_of_ofName? {s : String} {ty : Ty} (h : Ty.ofName? s = some ty) (hj : Choice s j) :
    ty.Form j := by
  simp only [Ty.ofName?] at h
  split_ifs at h with hvoid hchar hint hbool <;> cases h <;> subst s <;> exact hj

mutual

theorem Ty.form_of_ofJson? {j : Json} {ty : Ty} (h : Ty.ofJson? j = some ty) : ty.Form j := by
  rw [Ty.ofJson?] at h
  split at h
  · rename_i found hname
    cases h
    obtain ⟨s, hs, hname⟩ := Option.bind_eq_some_iff.mp hname
    exact Ty.form_of_ofName? hname (Json.choice_iff.mpr hs)
  · simp only [Option.bind_eq_bind, Option.bind_eq_some_iff, Subtype.exists, Prod.exists,
      ite_eq_iff, Option.pure_def, Option.some.injEq] at h
    obtain ⟨tag, p, hp, hvariant, h⟩ := h
    have htagged : ∀ {P : Json → Prop}, P p → Tagged tag P j :=
      fun hP => Json.tagged_iff.mpr ⟨p, hp, hvariant, hP⟩
    obtain ⟨rfl, target, htarget, rfl⟩ | ⟨-, h⟩ := h
    · exact htagged (Ty.form_of_ofJson? htarget)
    obtain ⟨rfl, e, he, hefield, l, hl, hlfield, elem, helem, len, hlen, rfl⟩ | ⟨-, h⟩ := h
    · exact htagged ⟨Json.at_iff.mpr ⟨e, he, hefield, Ty.form_of_ofJson? helem⟩,
        Json.at_iff.mpr ⟨l, hl, hlfield, Json.word?_eq_some.mp hlen⟩⟩
    obtain ⟨rfl, ps, hps, comps, hcomps, rfl⟩ | ⟨-, h⟩ := h
    · have hforms : List.Forall₂ Component.Form comps ps.unattach := by
        rw [List.unattach, List.forall₂_map_right_iff]
        exact (Json.mapM_eq_some.mp hcomps).imp fun c ⟨v, hv⟩ hc => Component.form_of_ofJson? hc
      exact htagged (Json.items_iff.mpr ⟨ps, hps, Component.forms_iff.mpr hforms⟩)
    · cases h
termination_by sizeOf j

theorem Component.form_of_ofJson? {j : Json} {c : Component} (h : Component.ofJson? j = some c) :
    c.Form j := by
  rw [Component.ofJson?] at h
  simp only [Option.bind_eq_bind, Option.bind_eq_some_iff, Subtype.exists, Option.pure_def,
    Option.some.injEq] at h
  obtain ⟨id, hid, name, hname, t, ht, htfield, ty, hty, rfl⟩ := h
  exact ⟨idOf?_eq_some.mp hid, nameOf?_eq_some.mp hname,
    Json.at_iff.mpr ⟨t, ht, htfield, Ty.form_of_ofJson? hty⟩⟩
termination_by sizeOf j

end

mutual

theorem Ty.ofJson?_of_form : ∀ {ty : Ty} {j : Json}, ty.Form j → Ty.ofJson? j = some ty
  | .void, _, h | .char, _, h | .int, _, h | .bool, _, h => by
    rw [Ty.ofJson?, Json.choice_iff.mp h]
    rfl
  | .ptr target, _, ⟨p, hj, htarget⟩ => by
    subst hj
    rw [Ty.ofJson?, Json.unitVariant_obj rfl]
    simp [Json.variant, Ty.ofJson?_of_form htarget]
  | .array elem len, _, ⟨p, hj, helem, hlen⟩ => by
    subst hj
    obtain ⟨e, he, hefield, helem⟩ := Json.at_iff.mp helem
    obtain ⟨l, hl, hlfield, hlen⟩ := Json.at_iff.mp hlen
    rw [Ty.ofJson?, Json.unitVariant_obj rfl]
    simp [Json.variant, hefield, hlfield, Ty.ofJson?_of_form helem, Json.word?_eq_some.mpr hlen]
  | .record comps, _, ⟨p, hj, hcomps⟩ => by
    subst hj
    obtain ⟨ps, hps, hforms⟩ := Json.items_iff.mp hcomps
    have hread := Json.mapM_eq_some.mpr (Component.ofJson?_of_forms hforms)
    rw [Ty.ofJson?, Json.unitVariant_obj rfl]
    simp [Json.variant, hps, hread]

theorem Component.ofJson?_of_forms : ∀ {cs : List Component} {js : List Json},
    Component.Forms cs js → List.Forall₂ (fun c j => Component.ofJson? j = some c) cs js
  | [], _, h => by
    rw [Component.Forms] at h
    subst h
    exact .nil
  | ⟨id, name, ty⟩ :: cs, _, ⟨j, js, hjs, ⟨hid, hname, hty⟩, hcs⟩ => by
    subst hjs
    obtain ⟨t, ht, htfield, hty⟩ := Json.at_iff.mp hty
    refine .cons ?_ (Component.ofJson?_of_forms hcs)
    rw [Component.ofJson?]
    simp [idOf?_eq_some.mpr hid, nameOf?_eq_some.mpr hname, htfield, Ty.ofJson?_of_form hty]

end

theorem Ty.ofJson?_eq_some {ty : Ty} : Ty.ofJson? j = some ty ↔ ty.Form j :=
  ⟨Ty.form_of_ofJson?, Ty.ofJson?_of_form⟩

/-! ## Reading what trees carry -/

theorem tyOf?_eq_some {ty : Ty} : tyOf? j = some ty ↔ At "ty" ty.Form j :=
  (Json.bind_field_eq_some Ty.ofJson?).trans (by simp only [Ty.ofJson?_eq_some])

theorem locationOf?_eq_some {l : Location} : locationOf? j = some l ↔ l.Form j := by
  have hnat : ∀ {v : Json} {n : UInt64}, (∃ m, v.nat? UInt64.size = some m ∧ UInt64.ofNat m = n) ↔
      Number 0 (2 ^ 64) n.toNat v := fun {v n} =>
    Json.exists_nat?_iff (g := UInt64.toNat) (fun m hm => UInt64.toNat_ofNat_of_lt' hm)
      (UInt64.ofNat_toNat)
  obtain ⟨line, column⟩ := l
  simp only [Location.Form, Json.at_iff, ← hnat, locationOf?, Option.bind_eq_bind,
    Option.bind_eq_some_iff, Subtype.exists, Option.pure_def, Option.some.injEq,
    Location.mk.injEq]
  constructor
  · rintro ⟨a, ha, hl, b, hb, hc, m, hm, n, hn, rfl, rfl⟩
    exact ⟨⟨a, ha, hl, m, hm, rfl⟩, b, hb, hc, n, hn, rfl⟩
  · rintro ⟨⟨a, ha, hl, m, hm, rfl⟩, b, hb, hc, n, hn, rfl⟩
    exact ⟨a, ha, hl, b, hb, hc, m, hm, n, hn, rfl, rfl⟩

theorem optional_eq_some {α : Type} {name : String} {x default : α} {read : Json → Option α} :
    optional j name default read = some x ↔
      AtOr name (x = default) (fun v => read v = some x) j := by
  rw [Json.atOr_iff]
  constructor
  · intro h
    obtain ⟨found, hfound, h⟩ := Option.bind_eq_some_iff.mp h
    match found, h with
    | some ⟨v, hv⟩, h => exact .inl ⟨v, hv, hfound, h⟩
    | none, h => exact .inr ⟨hfound, (Option.some.inj h).symm⟩
  · rintro (⟨v, hv, hfound, h⟩ | ⟨hfound, rfl⟩)
    · rw [optional, hfound]
      exact h
    · rw [optional, hfound]
      rfl

theorem locOf?_eq_some {l : Location} : locOf? j = some l ↔ l.Along j :=
  optional_eq_some.trans (by simp only [locationOf?_eq_some]; rfl)

theorem Var.ofJson?_eq_some {v : Var} : Var.ofJson? j = some v ↔ v.Form j := by
  obtain ⟨id, name, ty, loc⟩ := v
  simp [Var.ofJson?, Var.Form, Option.bind_eq_some_iff, idOf?_eq_some, nameOf?_eq_some,
    tyOf?_eq_some, locOf?_eq_some]

theorem Param.ofJson?_eq_some {p : Param} : Param.ofJson? j = some p ↔ p.Form j := by
  obtain ⟨id, name, ty⟩ := p
  simp [Param.ofJson?, Param.Form, Option.bind_eq_some_iff, idOf?_eq_some, nameOf?_eq_some,
    tyOf?_eq_some]

theorem Atom.form_of_ofJson? {a : Atom} (h : Atom.ofJson? j = some a) : a.Form j := by
  unfold Atom.ofJson? at h
  split at h
  · rename_i hname
    cases h
    exact Json.choice_iff.mpr hname
  · rename_i hname
    cases h
    exact Json.choice_iff.mpr hname
  · simp only [Option.bind_eq_bind, Option.bind_eq_some_iff, Subtype.exists, Prod.exists,
      ite_eq_iff, Option.pure_def, Option.some.injEq] at h
    obtain ⟨tag, p, hp, hvariant, h⟩ := h
    have htagged : ∀ {P : Json → Prop}, P p → Tagged tag P j :=
      fun hP => Json.tagged_iff.mpr ⟨p, hp, hvariant, hP⟩
    obtain ⟨rfl, b, hb, rfl⟩ | ⟨-, h⟩ := h
    · exact htagged (Json.bool?_eq_some.mp hb)
    obtain ⟨rfl, n, hn, rfl⟩ | ⟨-, h⟩ := h
    · have hnumber := Json.nat?_eq_some.mp hn
      rw [← UInt8.toNat_ofNat_of_lt' (Int.ofNat_lt.mp hnumber.2.2)] at hnumber
      exact htagged hnumber
    obtain ⟨rfl, v, hv, rfl⟩ | ⟨-, h⟩ := h
    · exact htagged (Json.word?_eq_some.mp hv)
    obtain ⟨rfl, s, hs, rfl⟩ | ⟨-, h⟩ := h
    · exact htagged (Json.text?_eq_some.mp hs)
    · cases h

theorem Atom.ofJson?_of_form : ∀ {a : Atom}, a.Form j → Atom.ofJson? j = some a
  | .void, h | .nil, h => by
    rw [Atom.ofJson?, Json.choice_iff.mp h]
    rfl
  | .bool b, ⟨p, hj, hp⟩ => by
    subst hj hp
    rfl
  | .char c, ⟨p, hj, hp⟩ => by
    have hread := Json.nat?_eq_some.mpr hp
    obtain ⟨rfl, -⟩ := hp
    subst hj
    simp [Atom.ofJson?, Json.unitVariant, Json.variant, hread]
  | .int v, ⟨p, hj, hp⟩ => by
    have hread := Json.word?_eq_some.mpr hp
    obtain ⟨rfl, -⟩ := hp
    subst hj
    simp [Atom.ofJson?, Json.unitVariant, Json.variant, hread]
  | .str s, ⟨p, hj, hp⟩ => by
    subst hj hp
    rfl

theorem bind_nodeOf?_eq_some {α : Type} {f : NodeId → Option α} {x : α} :
    (do let ⟨id, _⟩ ← j.field "id"; f (← nodeOf? id)) = some x ↔
      ∃ n : NodeId, At "id" n.Form j ∧ f n = some x := by
  simp only [Json.at_iff, ← nodeOf?_eq_some, Option.bind_eq_bind, Option.bind_eq_some_iff,
    Subtype.exists]
  constructor
  · rintro ⟨v, hv, hfield, n, hn, h⟩
    exact ⟨n, ⟨v, hv, hfield, hn⟩, h⟩
  · rintro ⟨n, ⟨v, hv, hfield, hn⟩, h⟩
    exact ⟨v, hv, hfield, n, hn, h⟩

theorem Node.ofJson?_eq_some {n : Node} : Node.ofJson? j = some n ↔ n.Form j := by
  obtain ⟨id, ty, lvalue, loc⟩ := n
  rw [Node.ofJson?, bind_nodeOf?_eq_some]
  simp [Node.Form, Option.bind_eq_some_iff, tyOf?_eq_some, optional_eq_some, locOf?_eq_some,
    Json.bool?_eq_some, -Bool.exists_bool]

theorem Mark.ofJson?_eq_some {m : Mark} : Mark.ofJson? j = some m ↔ m.Form j := by
  obtain ⟨id, loc⟩ := m
  rw [Mark.ofJson?, bind_nodeOf?_eq_some]
  simp [Mark.Form, Option.bind_eq_some_iff, locOf?_eq_some]

theorem Head.ofJson?_eq_some {h : Head} : Head.ofJson? j = some h ↔ h.Form j := by
  obtain ⟨id, name, params, ret, loc⟩ := h
  have hparams : ∀ {p : Json}, (∃ ps, p.items = some ps ∧ ps.unattach.mapM Param.ofJson? =
      some params) ↔ Items (List.Forall₂ Param.Form params) p := by
    intro p
    simp only [Json.items_iff, Json.mapM_eq_some, Param.ofJson?_eq_some]
  simp only [Head.Form, ← idOf?_eq_some, ← nameOf?_eq_some, ← locOf?_eq_some]
  simp only [Json.at_iff, ← hparams, ← Ty.ofJson?_eq_some]
  simp only [Head.ofJson?, List.mapM_subtype, Option.bind_eq_bind, Option.bind_eq_some_iff,
    Subtype.exists, Option.pure_def, Option.some.injEq, Head.mk.injEq]
  constructor
  · rintro ⟨p, hp, hpfield, ps, hps, r, hr, hrfield, _, hid, _, hname, _, hread, _, hret, _, hloc,
      rfl, rfl, rfl, rfl, rfl⟩
    exact ⟨hid, hname, ⟨p, hp, hpfield, ps, hps, hread⟩, ⟨r, hr, hrfield, hret⟩, hloc⟩
  · rintro ⟨hid, hname, ⟨p, hp, hpfield, ps, hps, hread⟩, ⟨r, hr, hrfield, hret⟩, hloc⟩
    exact ⟨p, hp, hpfield, ps, hps, r, hr, hrfield, _, hid, _, hname, _, hread, _, hret, _, hloc,
      rfl, rfl, rfl, rfl, rfl⟩

theorem BinOp.ofName?_eq_some {s : String} {op : BinOp} :
    BinOp.ofName? s = some op ↔ s = op.name := by
  constructor
  · intro h
    exact (beq_iff_eq.mp (List.find?_some (p := fun op : BinOp => op.name == s) h)).symm
  · rintro rfl
    exact BinOp.ofName?_name op

theorem PrefixOp.ofName?_eq_some {s : String} {op : PrefixOp} :
    PrefixOp.ofName? s = some op ↔ s = op.name := by
  constructor
  · intro h
    exact (beq_iff_eq.mp (List.find?_some (p := fun op : PrefixOp => op.name == s) h)).symm
  · rintro rfl
    exact PrefixOp.ofName?_name op

theorem binOpAt?_eq_some {name : String} {op : BinOp} :
    binOpAt? j name = some op ↔ At name (Choice op.name) j :=
  Json.bind_choice_eq_some BinOp.ofName?_eq_some

theorem prefixOpAt?_eq_some {name : String} {op : PrefixOp} :
    prefixOpAt? j name = some op ↔ At name (Choice op.name) j :=
  Json.bind_choice_eq_some PrefixOp.ofName?_eq_some

/-! ## Reading trees

A step: what is read from a value is exact if what is read from smaller values is.  The run is an
induction on the size of a value.
-/

/-- Trees are read exactly from values smaller than `j`. -/
structure ReadsExactly (j : Json) : Prop where
  expr : ∀ {v : Json}, sizeOf v < sizeOf j → ∀ {e : Expr}, Expr.ofJson? v = some e ↔ e.Form v
  stmt : ∀ {v : Json}, sizeOf v < sizeOf j → ∀ {s : Stmt}, Stmt.ofJson? v = some s ↔ s.Form v
  decl : ∀ {v : Json}, sizeOf v < sizeOf j → ∀ {d : Decl}, Decl.ofJson? v = some d ↔ d.Form v

/-- What has a kind is read by reading what it is marked with, and then the payload. -/
theorem reads_kind {α β : Type} {x : Option α} {a : α} {b : β} {tag : String}
    {P : Json → Prop} {f : α → (kind : j.Part) → String × kind.1.Part → Option β}
    (hx : x = some a) (h : At "kind" (Tagged tag P) j)
    (hf : ∀ kind hkind p hp, sizeOf p < sizeOf j → P p →
      f a ⟨kind, hkind⟩ (tag, ⟨p, hp⟩) = some b) :
    (x >>= fun a => j.field "kind" >>= fun kind => kind.1.variant >>= f a kind) = some b := by
  obtain ⟨kind, hkind, p, hp, hfield, hvariant, hP⟩ := Json.at_tagged_iff.mp h
  refine Option.bind_eq_some_iff.mpr ⟨a, hx, ?_⟩
  refine Option.bind_eq_some_iff.mpr ⟨⟨kind, hkind⟩, hfield, ?_⟩
  refine Option.bind_eq_some_iff.mpr ⟨(tag, ⟨p, hp⟩), hvariant, ?_⟩
  exact hf kind hkind p hp (Nat.lt_trans hp hkind) hP

theorem Expr.ne_null_of_form {e : Expr} (h : e.Form j) : j ≠ .null := by
  rintro rfl
  cases e <;>
    · obtain ⟨⟨⟨ms, v, hms, -⟩, -⟩, -⟩ := h
      cases hms

section Exactly

variable (hj : ReadsExactly j)

include hj

namespace ReadsExactly

theorem part {v : Json} (hv : sizeOf v < sizeOf j) : ReadsExactly v where
  expr h := hj.expr (Nat.lt_trans h hv)
  stmt h := hj.stmt (Nat.lt_trans h hv)
  decl h := hj.decl (Nat.lt_trans h hv)

theorem exprs {ps : List j.Part} {es : List Expr} :
    ps.unattach.mapM Expr.ofJson? = some es ↔ Expr.Forms es ps.unattach :=
  (Json.mapM_parts_eq_some fun hv => hj.expr hv).trans Expr.forms_iff.symm

theorem stmts {ps : List j.Part} {ss : List Stmt} :
    ps.unattach.mapM Stmt.ofJson? = some ss ↔ Stmt.Forms ss ps.unattach :=
  (Json.mapM_parts_eq_some fun hv => hj.stmt hv).trans Stmt.forms_iff.symm

theorem decls {ps : List j.Part} {ds : List Decl} :
    ps.unattach.mapM Decl.ofJson? = some ds ↔ Decl.Forms ds ps.unattach :=
  (Json.mapM_parts_eq_some fun hv => hj.decl hv).trans Decl.forms_iff.symm

variable {name : String} {v : Json} {hv : sizeOf v < sizeOf j}

theorem exprAt (hfield : j.field name = some ⟨v, hv⟩) {e : Expr} (h : Expr.ofJson? v = some e) :
    At name e.Form j :=
  Json.at_iff.mpr ⟨v, hv, hfield, (hj.expr hv).mp h⟩

theorem stmtsAt (hfield : j.field name = some ⟨v, hv⟩) {ps : List v.Part}
    (hps : v.items = some ps) {ss : List Stmt} (h : ps.unattach.mapM Stmt.ofJson? = some ss) :
    At name (Items (Stmt.Forms ss)) j :=
  Json.at_iff.mpr ⟨v, hv, hfield, Json.items_iff.mpr ⟨ps, hps, (hj.part hv).stmts.mp h⟩⟩

end ReadsExactly

theorem Expr.form_of_ofJson? {e : Expr} (h : Expr.ofJson? j = some e) : e.Form j := by
  rw [Expr.ofJson?] at h
  obtain ⟨n, hn, h⟩ := Option.bind_eq_some_iff.mp h
  obtain ⟨⟨kind, hkind⟩, hkfield, h⟩ := Option.bind_eq_some_iff.mp h
  obtain ⟨⟨tag, p, hp⟩, hvariant, h⟩ := Option.bind_eq_some_iff.mp h
  simp only [Option.bind_eq_bind, Option.bind_eq_some_iff, Subtype.exists, ite_eq_iff,
    Option.pure_def, Option.some.injEq, List.mapM_subtype] at h
  have hof : ∀ {P : Json → Prop}, P p → n.Kind tag P j := fun hP =>
    ⟨Node.ofJson?_eq_some.mp hn,
      Json.at_tagged_iff.mpr ⟨kind, hkind, p, hp, hkfield, hvariant, hP⟩⟩
  have hp := Nat.lt_trans hp hkind
  have hin := hj.part hp
  obtain ⟨rfl, a, ha, rfl⟩ | ⟨-, h⟩ := h
  · exact hof (Atom.form_of_ofJson? ha)
  obtain ⟨rfl, d, hd, rfl⟩ | ⟨-, h⟩ := h
  · exact hof (declOf?_eq_some.mp hd)
  obtain ⟨rfl, a, ha, hafield, i, hi, hifield, arr, harr, idx, hidx, rfl⟩ | ⟨-, h⟩ := h
  · exact hof ⟨hin.exprAt hafield harr, hin.exprAt hifield hidx⟩
  obtain ⟨rfl, b, hb, hbfield, base, hbase, comp, hcomp, rfl⟩ | ⟨-, h⟩ := h
  · exact hof ⟨hin.exprAt hbfield hbase, declAt?_eq_some.mp hcomp⟩
  obtain ⟨rfl, l, hl, hlfield, r, hr, hrfield, op, hop, lhs, hlhs, rhs, hrhs, rfl⟩ | ⟨-, h⟩ := h
  · exact hof ⟨binOpAt?_eq_some.mp hop, hin.exprAt hlfield hlhs, hin.exprAt hrfield hrhs⟩
  obtain ⟨rfl, v, hv, hvfield, op, hop, e, he, rfl⟩ | ⟨-, h⟩ := h
  · exact hof ⟨prefixOpAt?_eq_some.mp hop, hin.exprAt hvfield he⟩
  obtain ⟨rfl, e, he, rfl⟩ | ⟨-, h⟩ := h
  · exact hof ((hj.expr hp).mp he)
  obtain ⟨rfl, v, hv, hvfield, ps, hps, f, hf, args, hargs, rfl⟩ | ⟨-, h⟩ := h
  · exact hof ⟨declAt?_eq_some.mp hf, Json.at_iff.mpr ⟨v, hv, hvfield,
      Json.items_iff.mpr ⟨ps, hps, (hin.part hv).exprs.mp hargs⟩⟩⟩
  obtain ⟨rfl, v, hv, hvfield, ty, hty, e, he, rfl⟩ | ⟨-, h⟩ := h
  · exact hof ⟨tyOf?_eq_some.mp hty, hin.exprAt hvfield he⟩
  obtain ⟨rfl, ps, hps, body, hbody, rfl⟩ | ⟨-, h⟩ := h
  · exact hof (Json.items_iff.mpr ⟨ps, hps, hin.stmts.mp hbody⟩)
  obtain ⟨rfl, v, hv, hvfield, w, hw, hwfield, ps, hps, e, he, decls, hdecls, rfl⟩ | ⟨-, h⟩ := h
  · exact hof ⟨hin.exprAt hvfield he, Json.at_iff.mpr ⟨w, hw, hwfield,
      Json.items_iff.mpr ⟨ps, hps, (hin.part hw).decls.mp hdecls⟩⟩⟩
  · cases h

theorem Stmt.form_of_ofJson? {s : Stmt} (h : Stmt.ofJson? j = some s) : s.Form j := by
  rw [Stmt.ofJson?] at h
  obtain ⟨m, hm, h⟩ := Option.bind_eq_some_iff.mp h
  obtain ⟨⟨kind, hkind⟩, hkfield, h⟩ := Option.bind_eq_some_iff.mp h
  obtain ⟨⟨tag, p, hp⟩, hvariant, h⟩ := Option.bind_eq_some_iff.mp h
  simp only [Option.bind_eq_bind, Option.bind_eq_some_iff, Subtype.exists, ite_eq_iff,
    Option.pure_def, Option.some.injEq, List.mapM_subtype] at h
  have hof : ∀ {P : Json → Prop}, P p → m.Kind tag P j := fun hP =>
    ⟨Mark.ofJson?_eq_some.mp hm,
      Json.at_tagged_iff.mpr ⟨kind, hkind, p, hp, hkfield, hvariant, hP⟩⟩
  have hp := Nat.lt_trans hp hkind
  have hin := hj.part hp
  obtain ⟨rfl, a, ha, hafield, b, hb, hbfield, dst, hdst, src, hsrc, rfl⟩ | ⟨-, h⟩ := h
  · exact hof ⟨hin.exprAt hafield hdst, hin.exprAt hbfield hsrc⟩
  obtain ⟨rfl, e, he, rfl⟩ | ⟨-, h⟩ := h
  · exact hof ((hj.expr hp).mp he)
  obtain ⟨rfl, a, ha, hafield, b, hb, hbfield, c, hc, hcfield, ys, hys, ns, hns, test, htest, yes,
    hyes, no, hno, rfl⟩ | ⟨-, h⟩ := h
  · exact hof ⟨hin.exprAt hafield htest, hin.stmtsAt hbfield hys hyes,
      hin.stmtsAt hcfield hns hno⟩
  obtain ⟨rfl, a, ha, hafield, b, hb, hbfield, bs, hbs, test, htest, body, hbody, rfl⟩ | ⟨-, h⟩ := h
  · exact hof ⟨hin.exprAt hafield htest, hin.stmtsAt hbfield hbs hbody⟩
  · cases h

theorem Decl.form_of_ofJson? {d : Decl} (h : Decl.ofJson? j = some d) : d.Form j := by
  rw [Decl.ofJson?] at h
  simp only [Option.bind_eq_bind, Option.bind_eq_some_iff, Subtype.exists, Prod.exists,
    ite_eq_iff, Option.pure_def, Option.some.injEq] at h
  obtain ⟨tag, p, hp, hvariant, h⟩ := h
  have htagged : ∀ {P : Json → Prop}, P p → Tagged tag P j :=
    fun hP => Json.tagged_iff.mpr ⟨p, hp, hvariant, hP⟩
  have hin := hj.part hp
  obtain ⟨rfl, v, hv, rfl⟩ | ⟨-, h⟩ := h
  · exact htagged (Var.ofJson?_eq_some.mp hv)
  obtain ⟨rfl, head, hhead, found, hfound, h⟩ | ⟨-, h⟩ := h
  · have hhead := Head.ofJson?_eq_some.mp hhead
    split at h
    · cases h
      exact htagged ⟨hhead, Json.atOr_iff.mpr (.inr ⟨hfound, trivial⟩)⟩
    · cases h
      exact htagged ⟨hhead, Json.atOr_iff.mpr (.inl ⟨_, _, hfound, rfl⟩)⟩
    · rename_i b hb hnull
      obtain ⟨body, hbody, h⟩ := Option.bind_eq_some_iff.mp h
      cases h
      have hfield := Json.field_eq_some.mpr (Json.field?_eq_some.mp hfound)
      exact htagged ⟨hhead, hin.exprAt hfield hbody⟩
  · cases h

theorem Expr.ofJson?_of_form {e : Expr} (h : e.Form j) : Expr.ofJson? j = some e := by
  rw [Expr.ofJson?]
  cases e with
  | atom n a =>
    refine reads_kind (Node.ofJson?_eq_some.mpr h.1) h.2 fun _ _ p _ hp ha => ?_
    simp [Atom.ofJson?_of_form ha]
  | name n d =>
    refine reads_kind (Node.ofJson?_eq_some.mpr h.1) h.2 fun _ _ p _ hp hd => ?_
    simp [declOf?_eq_some.mpr hd]
  | index n arr idx =>
    refine reads_kind (Node.ofJson?_eq_some.mpr h.1) h.2 fun _ _ p _ hp ⟨harr, hidx⟩ => ?_
    have hin := hj.part hp
    obtain ⟨a, ha, hafield, harr⟩ := Json.at_iff.mp harr
    obtain ⟨i, hi, hifield, hidx⟩ := Json.at_iff.mp hidx
    simp [hafield, hifield, (hin.expr ha).mpr harr, (hin.expr hi).mpr hidx]
  | field n base comp =>
    refine reads_kind (Node.ofJson?_eq_some.mpr h.1) h.2 fun _ _ p _ hp ⟨hbase, hcomp⟩ => ?_
    have hin := hj.part hp
    obtain ⟨b, hb, hbfield, hbase⟩ := Json.at_iff.mp hbase
    simp [hbfield, (hin.expr hb).mpr hbase, declAt?_eq_some.mpr hcomp]
  | binary n op lhs rhs =>
    refine reads_kind (Node.ofJson?_eq_some.mpr h.1) h.2 fun _ _ p _ hp ⟨hop, hlhs, hrhs⟩ => ?_
    have hin := hj.part hp
    obtain ⟨l, hl, hlfield, hlhs⟩ := Json.at_iff.mp hlhs
    obtain ⟨r, hr, hrfield, hrhs⟩ := Json.at_iff.mp hrhs
    simp [hlfield, hrfield, binOpAt?_eq_some.mpr hop, (hin.expr hl).mpr hlhs,
      (hin.expr hr).mpr hrhs]
  | unary n op e =>
    refine reads_kind (Node.ofJson?_eq_some.mpr h.1) h.2 fun _ _ p _ hp ⟨hop, he⟩ => ?_
    have hin := hj.part hp
    obtain ⟨v, hv, hvfield, he⟩ := Json.at_iff.mp he
    simp [hvfield, prefixOpAt?_eq_some.mpr hop, (hin.expr hv).mpr he]
  | deref n e =>
    refine reads_kind (Node.ofJson?_eq_some.mpr h.1) h.2 fun _ _ p _ hp he => ?_
    simp [(hj.expr hp).mpr he]
  | call n f args =>
    refine reads_kind (Node.ofJson?_eq_some.mpr h.1) h.2 fun _ _ p _ hp ⟨hf, hargs⟩ => ?_
    have hin := hj.part hp
    obtain ⟨v, hv, hvfield, hitems⟩ := Json.at_iff.mp hargs
    obtain ⟨ps, hps, hforms⟩ := Json.items_iff.mp hitems
    simp [hvfield, hps, declAt?_eq_some.mpr hf, (hin.part hv).exprs.mpr hforms]
  | cast n ty e =>
    refine reads_kind (Node.ofJson?_eq_some.mpr h.1) h.2 fun _ _ p _ hp ⟨hty, he⟩ => ?_
    have hin := hj.part hp
    obtain ⟨v, hv, hvfield, he⟩ := Json.at_iff.mp he
    simp [hvfield, tyOf?_eq_some.mpr hty, (hin.expr hv).mpr he]
  | block n body =>
    refine reads_kind (Node.ofJson?_eq_some.mpr h.1) h.2 fun _ _ p _ hp hitems => ?_
    have hin := hj.part hp
    obtain ⟨ps, hps, hforms⟩ := Json.items_iff.mp hitems
    simp [hps, hin.stmts.mpr hforms]
  | scope n e decls =>
    refine reads_kind (Node.ofJson?_eq_some.mpr h.1) h.2 fun _ _ p _ hp ⟨he, hdecls⟩ => ?_
    have hin := hj.part hp
    obtain ⟨v, hv, hvfield, he⟩ := Json.at_iff.mp he
    obtain ⟨w, hw, hwfield, hitems⟩ := Json.at_iff.mp hdecls
    obtain ⟨ps, hps, hforms⟩ := Json.items_iff.mp hitems
    simp [hvfield, hwfield, hps, (hin.expr hv).mpr he, (hin.part hw).decls.mpr hforms]

theorem Stmt.ofJson?_of_form {s : Stmt} (h : s.Form j) : Stmt.ofJson? j = some s := by
  rw [Stmt.ofJson?]
  cases s with
  | assign m dst src =>
    refine reads_kind (Mark.ofJson?_eq_some.mpr h.1) h.2 fun _ _ p _ hp ⟨hdst, hsrc⟩ => ?_
    have hin := hj.part hp
    obtain ⟨a, ha, hafield, hdst⟩ := Json.at_iff.mp hdst
    obtain ⟨b, hb, hbfield, hsrc⟩ := Json.at_iff.mp hsrc
    simp [hafield, hbfield, (hin.expr ha).mpr hdst, (hin.expr hb).mpr hsrc]
  | eval m e =>
    refine reads_kind (Mark.ofJson?_eq_some.mpr h.1) h.2 fun _ _ p _ hp he => ?_
    simp [(hj.expr hp).mpr he]
  | cond m test yes no =>
    refine reads_kind (Mark.ofJson?_eq_some.mpr h.1) h.2 fun _ _ p _ hp ⟨htest, hyes, hno⟩ => ?_
    have hin := hj.part hp
    obtain ⟨a, ha, hafield, htest⟩ := Json.at_iff.mp htest
    obtain ⟨b, hb, hbfield, hyes⟩ := Json.at_iff.mp hyes
    obtain ⟨c, hc, hcfield, hno⟩ := Json.at_iff.mp hno
    obtain ⟨ys, hys, hyforms⟩ := Json.items_iff.mp hyes
    obtain ⟨ns, hns, hnforms⟩ := Json.items_iff.mp hno
    simp [hafield, hbfield, hcfield, hys, hns, (hin.expr ha).mpr htest,
      (hin.part hb).stmts.mpr hyforms, (hin.part hc).stmts.mpr hnforms]
  | loop m test body =>
    refine reads_kind (Mark.ofJson?_eq_some.mpr h.1) h.2 fun _ _ p _ hp ⟨htest, hbody⟩ => ?_
    have hin := hj.part hp
    obtain ⟨a, ha, hafield, htest⟩ := Json.at_iff.mp htest
    obtain ⟨b, hb, hbfield, hbody⟩ := Json.at_iff.mp hbody
    obtain ⟨bs, hbs, hforms⟩ := Json.items_iff.mp hbody
    simp [hafield, hbfield, hbs, (hin.expr ha).mpr htest, (hin.part hb).stmts.mpr hforms]

theorem Decl.ofJson?_of_form {d : Decl} (h : d.Form j) : Decl.ofJson? j = some d := by
  rw [Decl.ofJson?]
  cases d with
  | var v =>
    obtain ⟨p, _, hvariant, hv⟩ := Json.tagged_iff.mp h
    simp [hvariant, Var.ofJson?_eq_some.mpr hv]
  | foreign head =>
    obtain ⟨p, _, hvariant, hhead, hbody⟩ := Json.tagged_iff.mp h
    obtain ⟨v, _, hbody, rfl⟩ | ⟨hnone, -⟩ := Json.atOr_iff.mp hbody
    · simp [hvariant, Head.ofJson?_eq_some.mpr hhead, hbody]
    · simp [hvariant, Head.ofJson?_eq_some.mpr hhead, hnone]
  | fn head body =>
    obtain ⟨p, hp, hvariant, hhead, hbody⟩ := Json.tagged_iff.mp h
    obtain ⟨v, hv, hfield, hbody⟩ := Json.at_iff.mp hbody
    have hfield := Json.field?_eq_some.mpr (Json.field_eq_some.mp hfield)
    have hread := ((hj.part hp).expr hv).mpr hbody
    cases v with
    | null => exact absurd rfl (Expr.ne_null_of_form hbody)
    | bool | int | str | unusable | arr | obj =>
      simp [hvariant, Head.ofJson?_eq_some.mpr hhead, hfield, hread]

end Exactly

theorem readsExactly (j : Json) : ReadsExactly j := by
  induction hn : sizeOf j using Nat.strongRecOn generalizing j with
  | ind n ih =>
    subst hn
    have below : ∀ {v : Json}, sizeOf v < sizeOf j → ReadsExactly v := fun hv => ih _ hv _ rfl
    exact
      { expr := fun hv _ =>
          ⟨Expr.form_of_ofJson? (below hv), Expr.ofJson?_of_form (below hv)⟩
        stmt := fun hv _ =>
          ⟨Stmt.form_of_ofJson? (below hv), Stmt.ofJson?_of_form (below hv)⟩
        decl := fun hv _ =>
          ⟨Decl.form_of_ofJson? (below hv), Decl.ofJson?_of_form (below hv)⟩ }

/-- Reading accepts the ways to write a program, each as that program. -/
theorem Program.ofJson?_eq_some {p : Program} : Program.ofJson? j = some p ↔ p.Form j := by
  constructor
  · intro h
    obtain ⟨⟨v, hv⟩, hfield, h⟩ := Option.bind_eq_some_iff.mp h
    obtain ⟨ps, hps, h⟩ := Option.bind_eq_some_iff.mp h
    obtain ⟨decls, hdecls, h⟩ := Option.bind_eq_some_iff.mp h
    cases h
    have hforms := (readsExactly v).decls.mp ((Json.mapM_parts _ _).symm.trans hdecls)
    exact Json.at_iff.mpr ⟨v, hv, hfield, Json.items_iff.mpr ⟨ps, hps, hforms⟩⟩
  · intro h
    obtain ⟨v, _, hv, hitems⟩ := Json.at_iff.mp h
    obtain ⟨ps, hps, hforms⟩ := Json.items_iff.mp hitems
    simp [Program.ofJson?, hv, hps, (readsExactly v).decls.mpr hforms]

end Reading

/-- A program is read back from what is written of it, so nothing is lost by writing and reading
what was read; and what is read as a program are the ways to write it and nothing else. -/
theorem Program.json_lossless :
    (∀ p : Program, Program.ofJson? p.json = some p) ∧
      (∀ (j : Json) (p : Program), Program.ofJson? j = some p → Program.ofJson? p.json = some p) ∧
      ∀ (j : Json) (p : Program), Program.ofJson? j = some p ↔ p.Form j := by
  have hback : ∀ p : Program, Program.ofJson? p.json = some p := fun p =>
    Program.ofJson?_eq_some.mpr p.form_json
  refine ⟨hback, ?_, ?_⟩
  · intro j p _
    exact hback p
  · intro j p
    exact Program.ofJson?_eq_some

/-- A function that gives seven, and one of the machine.  Only what is needed is there, with a
member that nothing asks for, and one type is written as an object. -/
def sparse : Json :=
  .obj [("decls", .arr
    [.obj [("Fun", .obj [("id", .int 1), ("name", .str "main"), ("params", .arr []),
      ("ret", .obj [("Int", .null)]), ("body", .obj [("id", .int 0), ("ty", .str "Int"),
        ("note", .arr []), ("kind", .obj [("Atom", .obj [("Int", .int 7)])])])])],
    .obj [("Fun", .obj [("id", .int 2), ("name", .str "getc"), ("params", .arr []),
      ("ret", .str "Int")])]])]

/-- A variable with a number that is out of range. -/
def unnumbered : Json :=
  .obj [("decls", .arr [.obj [("Var", .obj [("id", .int 4294967296), ("name", .str "x"),
    ("ty", .str "Int")])]])]

theorem Program.json_lossless_sparse :
    Program.ofJson? sparse =
        some ⟨[.fn ⟨⟨1⟩, "main", [], .int, ⟨0, 0⟩⟩ (.atom ⟨⟨0⟩, .int, false, ⟨0, 0⟩⟩ (.int 7)),
          .foreign ⟨⟨2⟩, "getc", [], .int, ⟨0, 0⟩⟩]⟩ ∧
      Program.ofJson? unnumbered = none := by
  obtain ⟨-, -, hform⟩ := Program.json_lossless
  constructor
  · rw [hform]
    simp [sparse, Program.Form, Decl.Forms, Decl.Form, Head.Form, Expr.Form, Node.Kind, Node.Form,
      Ty.Form, Atom.Form, Location.Along, DeclId.Form, NodeId.Form, Word.Form, Items, Tagged,
      Choice, Text, Number]
  · rw [Option.eq_none_iff_forall_ne_some]
    rintro ⟨ds⟩ h
    rw [hform] at h
    rcases ds with _ | ⟨v | head | ⟨head, body⟩, ds⟩ <;>
      simp [unnumbered, Program.Form, Decl.Forms, Decl.Form, Var.Form, DeclId.Form, Items, Tagged,
        Number] at h
    omega

end Typed

end MmixBackend
