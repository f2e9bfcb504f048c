import Mathlib.Data.List.Nodup
import MmixBackend.Proofs.Outline

/-!
# What laying out does

Laying out a function draws its label, makes entries that can be read off its syntax, one after
another, and ends with its frame.  An entry places the components of a type, gives a variable its
place or a literal its label; `Fills` says what each of them does to the layout.  What is known of a
layout follows by going along the entries of an item and the items of a program.

So every frame is that of a function of the program and was made for it, what has an address of its
own is a variable at top level, and the labels of two functions are the same only if both are at top
level and have the same name: a function inside another has a label of its own, without a text.
-/

namespace MmixBackend

open Typed Build

mutual

/-- The components of the records that a type mentions. -/
def Typed.Ty.components : Ty → List DeclId
  | .ptr target => target.components
  | .array elem _ => elem.components
  | .record comps => Typed.Component.listComponents comps
  | .void | .char | .int | .bool => []

def Typed.Component.listComponents : List Component → List DeclId
  | [] => []
  | ⟨id, _, ty⟩ :: cs => id :: (ty.components ++ Typed.Component.listComponents cs)

end

/-- The variable that a declaration declares. -/
def Typed.Decl.var? : Decl → Option Var
  | .var v => some v
  | .foreign _ | .fn .. => none

/-- The variables that an expression itself declares. -/
def Typed.Expr.locals : Expr → List Var
  | .scope _ _ decls => decls.filterMap Decl.var?
  | _ => []

/-- The types that stand at an expression: its own, that of a cast, and those of the variables it
declares. -/
def Typed.Expr.types : Expr → List Ty
  | .cast node ty _ => [node.ty, ty]
  | e => e.ty :: e.locals.map (·.ty)

/-- The depth of the frame that a place is in; what has an address of its own is in none. -/
def Access.depth? : Access → Option Nat
  | .absolute .. => none
  | .relative _ depth => some depth

/-! ## Entries -/

namespace Typed

/-- What is entered: the components of a type, a parameter or variable with the depth of the
function it belongs to, or a literal. -/
inductive Entry where
  | type (ty : Ty)
  | var (id : DeclId) (depth? : Option Nat)
  | literal (node : Node) (text : String)

/-- The entries for a parameter or variable. -/
def Entry.ofVar (depth? : Option Nat) (v : DeclId × Ty) : List Entry := [.type v.2, .var v.1 depth?]

def Expr.entries (depth : Nat) : Expr → List Entry
  | .cast node ty _ => [.type node.ty, .type ty]
  | .atom node (.str text) => [.type node.ty, .literal node text]
  | e => .type e.ty :: (e.locals.map fun v => (v.id, v.ty)).flatMap (Entry.ofVar (some depth))

/-- The expressions of an item's own body. -/
def Item.exprs : Item → List Expr
  | .function _ _ body => body.toList.flatMap Expr.within
  | .var _ => []

/-- The parameters and variables of an item with their types. -/
def Item.vars : Item → List (DeclId × Ty)
  | .function around head body =>
    head.params.map (fun q => (q.id, q.ty)) ++
      (Item.function around head body).exprs.flatMap fun e => e.locals.map fun v => (v.id, v.ty)
  | .var v => [(v.id, v.ty)]

def Item.types : Item → List Ty
  | .function around head body =>
    head.params.map (·.ty) ++
      head.ret :: (Item.function around head body).exprs.flatMap Expr.types
  | .var v => [v.ty]

/-- The depth of the function that an item is; a variable at top level has none. -/
def Item.depth? : Item → Option Nat
  | .function around _ _ => some around.length
  | .var _ => none

def Item.entries : Item → List Entry
  | .function around head body =>
    (head.params.map fun q => (q.id, q.ty)).flatMap (Entry.ofVar (some around.length)) ++
      .type head.ret ::
        (Item.function around head body).exprs.flatMap (Expr.entries around.length)
  | .var v => Entry.ofVar none (v.id, v.ty)

section Entries

variable {ty : Ty} {d : DeclId} {depth? depth?' : Option Nat} {depth : Nat}
  {vs : List (DeclId × Ty)} {e : Expr} {i : Item}

theorem ty_mem_types (e : Expr) : e.ty ∈ e.types := by
  cases e <;> exact List.mem_cons_self

theorem local_ty_mem_types {v : Var} (hv : v ∈ e.locals) : v.ty ∈ e.types := by
  cases e with
  | scope => exact List.mem_cons_of_mem _ (List.mem_map_of_mem hv)
  | cast | atom | name | index | field | binary | unary | deref | call | block => cases hv

@[simp]
theorem Entry.type_mem_ofVar {v : DeclId × Ty} : .type ty ∈ Entry.ofVar depth? v ↔ v.2 = ty := by
  simp [Entry.ofVar, eq_comm]

@[simp]
theorem Entry.var_mem_ofVar {v : DeclId × Ty} :
    .var d depth?' ∈ Entry.ofVar depth? v ↔ v.1 = d ∧ depth?' = depth? := by
  simp [Entry.ofVar, eq_comm]

@[simp]
theorem Expr.type_mem_entries : .type ty ∈ e.entries depth ↔ ty ∈ e.types := by
  unfold Expr.entries
  split
  · simp [Expr.types]
  · simp [Expr.types, Expr.locals, Expr.ty, Expr.node]
  · next hcast _ =>
    rw [Expr.types]
    · simp
    · exact hcast

@[simp]
theorem Expr.var_mem_entries :
    .var d depth? ∈ e.entries depth ↔ d ∈ e.locals.map (·.id) ∧ depth? = some depth := by
  unfold Expr.entries
  split
  · simp [Expr.locals]
  · simp [Expr.locals]
  · simp [← and_assoc]

@[simp]
theorem Item.type_mem_entries : .type ty ∈ i.entries ↔ ty ∈ i.types := by
  cases i with
  | var v => simp [Item.entries, Item.types, Entry.ofVar]
  | function around head body => simp [Item.entries, Item.types]

theorem Item.map_vars (around : List Head) (head : Head) (body : Option Expr) :
    (Item.function around head body).vars.map (·.1) = head.params.map (·.id) ++
      ((Item.function around head body).exprs.flatMap Expr.locals).map (·.id) := by
  simp only [Item.vars, List.map_append, List.map_map, List.map_flatMap]
  rfl

@[simp]
theorem Item.var_mem_entries :
    .var d depth? ∈ i.entries ↔ d ∈ i.vars.map (·.1) ∧ depth? = i.depth? := by
  cases i with
  | var v => simp [Item.entries, Item.vars, Entry.ofVar, Item.depth?]
  | function around head body =>
    rw [Item.map_vars]
    simp [Item.entries, Item.depth?]
    grind

end Entries

end Typed

namespace Layouting

/-- From one layout and its names to another by these entries in order. -/
inductive Fills : List Entry → Layout → Names → Layout → Names → Prop
  | nil {l n} : Fills [] l n l n
  | type {ty es l n places l' n'} (h : ty.place l.accesses = .ok places)
      (hrest : Fills es { l with accesses := places } n l' n') : Fills (.type ty :: es) l n l' n'
  | var {id a es l n l' n'}
      (hrest : Fills es { l with accesses := l.accesses.insert id a } n l' n') :
      Fills (.var id a.depth? :: es) l n l' n'
  | literal {node text es l n l' n'}
      (hrest : Fills es
        { l with
          literals := l.literals.insert node.id
            (.absolute ⟨n.labels.size⟩ (literalSize text) (some text)) }
        n.newLabel.2 l' n') : Fills (.literal node text :: es) l n l' n'

/-- By these entries a declaration gets a place, at this depth. -/
def Gives (es : List Entry) (d : DeclId) (depth? : Option Nat) : Prop :=
  .var d depth? ∈ es ∨ depth? = some 0 ∧ ∃ ty, .type ty ∈ es ∧ d ∈ ty.components

theorem placeFrom_cons {id : DeclId} {name : String} {ty : Ty} {comps : List Component}
    {offset : Word} {places places' : Table DeclId Access}
    (h : Component.placeFrom offset (⟨id, name, ty⟩ :: comps) places = .ok places') :
    ∃ places₁ n next, ty.place (places.insert id (.relative offset 0)) = .ok places₁ ∧
      ty.size = .ok n ∧ Word.checkedAdd offset n = .ok next ∧
      Component.placeFrom next comps places₁ = .ok places' := by
  rw [Component.placeFrom] at h
  obtain ⟨places₁, hty, h⟩ := except_bind_ok.mp h
  obtain ⟨n, hn, h⟩ := except_bind_ok.mp h
  obtain ⟨next, hnext, h⟩ := except_bind_ok.mp h
  exact ⟨places₁, n, next, hty, hn, hnext, h⟩

mutual

/-- Only components get a place, and it is one in a record. -/
theorem place_cases {d : DeclId} :
    ∀ {ty : Ty} {places places' : Table DeclId Access}, ty.place places = .ok places' →
      places'[d]? = places[d]? ∨
        d ∈ ty.components ∧ ∃ offset, places'[d]? = some (.relative offset 0)
  | .ptr target, _, _, h | .array target _, _, _, h => by
    rw [Ty.place] at h
    rw [Ty.components]
    exact place_cases h
  | .record comps, _, _, h => by
    rw [Ty.place] at h
    split at h
    · cases h
      exact Or.inl rfl
    · exact placeFrom_cases h
  | .void, _, _, h | .char, _, _, h | .int, _, _, h | .bool, _, _, h => by
    rw [Ty.place] at h
    cases h
    exact Or.inl rfl

theorem placeFrom_cases {d : DeclId} :
    ∀ {comps : List Component} {offset : Word} {places places' : Table DeclId Access},
      Component.placeFrom offset comps places = .ok places' →
      places'[d]? = places[d]? ∨
        d ∈ Component.listComponents comps ∧ ∃ offset, places'[d]? = some (.relative offset 0)
  | [], _, _, _, h => by
    rw [Component.placeFrom] at h
    cases h
    exact Or.inl rfl
  | ⟨id, name, ty⟩ :: cs, offset, places, _, h => by
    obtain ⟨places₁, -, next, h₁, -, -, h⟩ := placeFrom_cons h
    -- the place was given by the rest, by the type of this component, or just now
    rw [Component.listComponents, List.mem_cons, List.mem_append]
    rcases placeFrom_cases (d := d) h with h₂ | ⟨hd, hrel⟩
    · rcases place_cases (d := d) h₁ with h₃ | ⟨hd, hrel⟩
      · by_cases hid : id = d
        · subst hid
          exact Or.inr ⟨Or.inl rfl, offset,
            h₂.trans (h₃.trans Std.ExtTreeMap.getElem?_insert_self)⟩
        · exact Or.inl (h₂.trans (h₃.trans (Table.getElem?_insert_of_ne hid)))
      · exact Or.inr ⟨Or.inr (Or.inl hd), hrel.imp fun _ h => h₂.trans h⟩
    · exact Or.inr ⟨Or.inr (Or.inr hd), hrel⟩

end

section Fills

variable {es es' : List Entry} {l l₁ l' : Layout} {n n₁ n' : Names}

theorem Fills.append (h : Fills es l n l₁ n₁) (h' : Fills es' l₁ n₁ l' n') :
    Fills (es ++ es') l n l' n' := by
  induction h with
  | nil => exact h'
  | type hty _ ih => exact .type hty (ih h')
  | var _ ih => exact .var (ih h')
  | literal _ ih => exact .literal (ih h')

theorem Fills.frames (h : Fills es l n l' n') : l'.frames = l.frames := by
  induction h with
  | nil => rfl
  | type _ _ ih | var _ ih | literal _ ih => exact ih

theorem Fills.names (h : Fills es l n l' n') : n ≤ n' := by
  induction h with
  | nil => exact Names.le_refl _
  | type _ _ ih | var _ ih => exact ih
  | literal _ ih => exact Names.le_trans (Names.le_newLabel _) ih

variable {d : DeclId}

theorem Gives.mono {depth? : Option Nat} (h : Gives es d depth?) (hsub : es ⊆ es') :
    Gives es' d depth? :=
  h.imp (fun h => hsub h) (And.imp_right fun ⟨ty, hty, hd⟩ => ⟨ty, hsub hty, hd⟩)

/-- A declaration keeps its place, or gets one by an entry. -/
theorem Fills.access (h : Fills es l n l' n') (d : DeclId) :
    l'.accesses[d]? = l.accesses[d]? ∨ ∃ a, l'.accesses[d]? = some a ∧ Gives es d a.depth? := by
  induction h with
  | nil => exact Or.inl rfl
  | literal _ ih =>
    exact ih.imp_right fun ⟨a, ha, hd⟩ => ⟨a, ha, hd.mono (List.subset_cons_self _ _)⟩
  | @type ty _ _ _ _ _ _ hty _ ih =>
    rcases ih with hsame | ⟨a, ha, hd⟩
    · refine (place_cases (d := d) hty).imp hsame.trans fun ⟨hd, offset, hrel⟩ => ?_
      exact ⟨_, hsame.trans hrel, Or.inr ⟨rfl, ty, List.mem_cons_self, hd⟩⟩
    · exact Or.inr ⟨a, ha, hd.mono (List.subset_cons_self _ _)⟩
  | @var id a _ _ _ _ _ _ ih =>
    rcases ih with hsame | ⟨b, hb, hd⟩
    · by_cases hid : id = d
      · subst hid
        exact Or.inr ⟨a, hsame.trans Std.ExtTreeMap.getElem?_insert_self,
          Or.inl List.mem_cons_self⟩
      · exact Or.inl (hsame.trans (Table.getElem?_insert_of_ne hid))
    · exact Or.inr ⟨b, hb, hd.mono (List.subset_cons_self _ _)⟩

theorem Fills.others (h : Fills es l n l' n') (hvars : ∀ depth?, .var d depth? ∉ es)
    (htypes : ∀ ty, .type ty ∈ es → d ∉ ty.components) : l'.accesses[d]? = l.accesses[d]? := by
  refine (h.access d).resolve_right ?_
  rintro ⟨a, -, hvar | ⟨-, ty, hty, hd⟩⟩
  · exact hvars _ hvar
  · exact htypes ty hty hd

/-- Variables are given places for themselves and for the components of their types. -/
theorem Fills.others_ofVar {vs : List (DeclId × Ty)} {depth? : Option Nat}
    (h : Fills (vs.flatMap (Entry.ofVar depth?)) l n l' n') (hid : ∀ v ∈ vs, v.1 ≠ d)
    (hty : ∀ v ∈ vs, d ∉ v.2.components) :
    l'.accesses[d]? = l.accesses[d]? := by
  refine h.others (fun depth?' hmem => ?_) fun ty hmem => ?_
  · obtain ⟨v, hv, hmem⟩ := List.mem_flatMap.mp hmem
    exact hid v hv (Entry.var_mem_ofVar.mp hmem).1
  · obtain ⟨v, hv, hmem⟩ := List.mem_flatMap.mp hmem
    exact Entry.type_mem_ofVar.mp hmem ▸ hty v hv

theorem Fills.mem_accesses (h : Fills es l n l' n') (hd : d ∈ l.accesses) :
    d ∈ l'.accesses := by
  rw [Std.ExtTreeMap.mem_iff_isSome_getElem?] at hd ⊢
  rcases h.access d with hsame | ⟨a, ha, -⟩
  · rwa [hsame]
  · rw [ha]
    rfl

theorem Fills.literal_kept (h : Fills es l n l' n') {id : NodeId}
    (hid : ∃ label size init, l.literals[id]? = some (.absolute label size init)) :
    ∃ label size init, l'.literals[id]? = some (.absolute label size init) := by
  induction h with
  | nil => exact hid
  | type _ _ ih | var _ ih => exact ih hid
  | @literal node _ _ _ _ _ _ _ ih =>
    refine ih ?_
    by_cases hn : node.id = id
    · subst hn
      exact ⟨_, _, _, Std.ExtTreeMap.getElem?_insert_self⟩
    · simpa only [Table.getElem?_insert_of_ne hn] using hid

/-- Variables get places, and literals addresses. -/
theorem Fills.entered (h : Fills es l n l' n') :
    (∀ d depth?, .var d depth? ∈ es → d ∈ l'.accesses) ∧
      ∀ node text, .literal node text ∈ es →
        ∃ label size init, l'.literals[node.id]? = some (.absolute label size init) := by
  induction h with
  | nil => exact ⟨nofun, nofun⟩
  | type _ _ ih =>
    exact ⟨fun d k h => ih.1 d k ((List.mem_cons.mp h).resolve_left nofun),
      fun node text h => ih.2 node text ((List.mem_cons.mp h).resolve_left nofun)⟩
  | var hrest ih =>
    refine ⟨fun d k h => ?_, fun node text h =>
      ih.2 node text ((List.mem_cons.mp h).resolve_left nofun)⟩
    rcases List.mem_cons.mp h with h | h
    · cases h
      exact hrest.mem_accesses Std.ExtTreeMap.mem_insert_self
    · exact ih.1 d k h
  | literal hrest ih =>
    refine ⟨fun d k h => ih.1 d k ((List.mem_cons.mp h).resolve_left nofun),
      fun node text h => ?_⟩
    rcases List.mem_cons.mp h with h | h
    · cases h
      exact hrest.literal_kept ⟨_, _, _, Std.ExtTreeMap.getElem?_insert_self⟩
    · exact ih.2 node text h

end Fills

/-! ## Passes that make entries -/

/-- A pass stops only at a word that leaves its range. -/
def Stops {α : Type} (x : Layouting α) : Prop := ∀ l, Decides (x l) True fun _ => True

/-- A pass makes these entries in order, and stops only at a word that leaves its range. -/
structure Makes {α : Type} (es : List Entry) (x : Layouting α) : Prop where
  fills : ∀ ⦃l l' s s' a⦄, x l s = .ok (a, l') s' → Fills es l s.names l' s'.names
  stops : Stops x

section Makes

variable {α β : Type} {es es' : List Entry}

variable {f : α → Layouting β} {x : Layouting α}

theorem Stops.bind (hx : Stops x) (hf : ∀ a, Stops (f a)) :
    Stops (x >>= f) := fun l => (hx l).then fun r _ => hf r.1 r.2

theorem stops_lift {x : Build α} {Q : α → Prop} (h : Decides x True Q) :
    Stops (liftM x : Layouting α) := fun _ => h.lift.imp Iff.rfl fun _ _ => trivial

theorem makes_pure (a : α) : Makes [] (pure a : Layouting α) where
  fills l l' s s' b h := by
    obtain ⟨-, rfl, rfl⟩ := stateT_pure_ok.mp h
    exact .nil
  stops _ := decides_pure trivial

theorem makes_exactly (x : Except Overflow α) : Makes [] (liftM (exactly x) : Layouting α) where
  fills l l' s s' b h := by
    obtain ⟨hx, rfl⟩ := stateT_lift_ok.mp h
    obtain ⟨-, rfl⟩ := exactly_ok.mp hx
    exact .nil
  stops := stops_lift (decides_exactly x)

theorem Makes.bind (hx : Makes es x) (hf : ∀ a, Makes es' (f a)) : Makes (es ++ es') (x >>= f) where
  fills l l' s s' b h := by
    obtain ⟨a, l₁, s₁, h₁, h₂⟩ := stateT_bind_ok.mp h
    exact (hx.fills h₁).append ((hf a).fills h₂)
  stops := hx.stops.bind fun a => (hf a).stops

theorem Makes.then (hx : Makes [] x) (hf : ∀ a, Makes es (f a)) : Makes es (x >>= f) :=
  hx.bind hf

theorem place_ok {ty : Ty} {l l' : Layout} {s s' : Session} {u : Unit}
    (h : place ty l s = .ok (u, l') s') :
    ∃ places, ty.place l.accesses = .ok places ∧ l' = { l with accesses := places } ∧ s' = s := by
  simp only [place, stateT_bind_ok, stateT_get_ok, stateT_lift_ok, exactly_ok,
    stateT_set_ok] at h
  obtain ⟨_, _, _, ⟨rfl, rfl, rfl⟩, places, _, _, ⟨⟨hp, rfl⟩, rfl⟩, rfl, rfl⟩ := h
  exact ⟨places, hp, rfl, rfl⟩

theorem makes_place (ty : Ty) : Makes [.type ty] (place ty) where
  fills l l' s s' u h := by
    obtain ⟨places, hp, rfl, rfl⟩ := place_ok h
    exact .type hp .nil
  stops := .bind (fun _ => decides_pure trivial) fun _ =>
    (stops_lift (decides_exactly _)).bind fun _ _ => decides_pure trivial

theorem makes_access (id : DeclId) (a : Access) : Makes [.var id a.depth?] (access id a) where
  fills l l' s s' u h := by
    obtain ⟨rfl, rfl⟩ := stateT_modify_ok.mp h
    exact .var .nil
  stops _ := decides_pure trivial

theorem makes_literal (node : Node) (text : String) (x : Extent) :
    Makes [.literal node text] (do
      let label ← Build.newLabel
      modify fun l =>
        { l with
          literals := l.literals.insert node.id
            (.absolute label (literalSize text) (some text)) }
      return x : Layouting Extent) where
  fills l l' s s' b h := by
    simp only [stateT_bind_ok, stateT_lift_ok, newLabel_ok, stateT_modify_ok, stateT_pure_ok] at h
    obtain ⟨_, _, _, ⟨⟨rfl, rfl⟩, rfl⟩, _, _, _, ⟨rfl, rfl⟩, -, rfl, rfl⟩ := h
    exact .literal .nil
  stops := (stops_lift decides_newLabel).bind fun _ _ => decides_pure trivial

theorem makes_params (depth : Nat) :
    ∀ (offset : Word) (qs : List Param),
      Makes ((qs.map fun q => (q.id, q.ty)).flatMap (Entry.ofVar (some depth)))
        (params depth offset qs)
  | _, [] => makes_pure ()
  | offset, q :: qs => by
    rw [params]
    exact (makes_place q.ty).bind fun _ => (makes_access q.id (.relative offset depth)).bind
      fun _ => (makes_exactly _).then fun _ => (makes_exactly _).then fun next =>
        makes_params depth next qs

theorem makes_locals (depth : Nat) :
    ∀ (x : Extent) (ds : List Decl),
      Makes (((ds.filterMap Decl.var?).map fun v => (v.id, v.ty)).flatMap
        (Entry.ofVar (some depth))) (locals depth x ds)
  | _, [] => makes_pure _
  | x, .var v :: ds => by
    rw [locals]
    exact (makes_place v.ty).bind fun _ => (makes_exactly _).then fun _ =>
      (makes_exactly _).then fun total => (makes_exactly _).then fun offset =>
        (makes_access v.id (.relative offset depth)).bind fun _ =>
          makes_locals depth { x with locals := total } ds
  | x, .foreign _ :: ds | x, .fn .. :: ds => by
    rw [locals]
    · exact makes_locals depth x ds
    · simp

theorem makes_visit (depth : Nat) (x : Extent) (e : Expr) :
    Makes (e.entries depth) (visit depth x e) := by
  unfold visit
  cases e with
  | atom node a =>
    cases a with
    | str text => exact (makes_place _).bind fun _ => makes_literal node text x
    | void | nil | bool | char | int => exact (makes_place _).bind fun _ => makes_pure x
  | call node f args =>
    exact (makes_place _).bind fun _ => (makes_exactly _).then fun _ =>
      (makes_exactly _).then fun _ => makes_pure _
  | unary node op a => cases op <;> exact (makes_place _).bind fun _ => makes_pure _
  | cast node ty a =>
    exact (makes_place _).bind fun _ => (makes_place ty).bind fun _ => makes_pure x
  | scope node a decls => exact (makes_place _).bind fun _ => makes_locals depth x decls
  | name | index | field | binary | deref | block =>
    exact (makes_place _).bind fun _ => makes_pure x

theorem makes_visits (depth : Nat) :
    ∀ (es : List Expr) (x : Extent),
      Makes (es.flatMap (Expr.entries depth)) (es.foldlM (visit depth) x)
  | [], _ => makes_pure _
  | e :: es, x => (makes_visit depth x e).bind fun x' => makes_visits depth es x'

theorem makes_extent (depth : Nat) (body : Option Expr) :
    Makes ((body.toList.flatMap Expr.within).flatMap (Expr.entries depth)) (extent depth body) := by
  cases body with
  | none => exact makes_pure _
  | some body =>
    rw [Option.toList_some, List.flatMap_singleton]
    exact makes_visits depth _ _

end Makes

/-! ## Items -/

/-- The label of a function at a depth, and the names it is drawn from and leaves. -/
def Labelled (depth : Nat) (name : String) (n : Names) (label : Label) (n' : Names) : Prop :=
  if depth = 0 then label = (n.named ("_" ++ name)).1 ∧ n' = (n.named ("_" ++ name)).2
  else label = ⟨n.labels.size⟩ ∧ n' = n.newLabel.2

section Items

variable {depth : Nat} {head : Head} {body : Option Expr} {around : List Head} {i : Item}
  {is : List Item} {l l' : Layout} {s s' : Session} {n n₁ n' : Names} {label : Label}
  {name : String} {f : Frame}

theorem Labelled.le (h : Labelled depth name n label n') : n ≤ n' := by
  unfold Labelled at h
  split at h
  · rw [h.2]
    exact Names.le_named n _
  · rw [h.2]
    exact Names.le_newLabel n

/-- A function at top level has a label with its name, and one inside another a label without a
text. -/
theorem Labelled.text (h : Labelled depth name n label n₁) (hle : n₁ ≤ n') :
    n'.labels[label.index]? = some (if depth = 0 then some ("_" ++ name) else none) ∧
      (depth = 0 → n'.lookup ("_" ++ name) = some label) := by
  unfold Labelled at h
  split at h
  · next hd =>
    obtain ⟨rfl, rfl⟩ := h
    have hlook := Names.lookup_of_le hle (Names.named_lookup n ("_" ++ name))
    rw [if_pos hd]
    exact ⟨Names.getElem?_labels_of_lookup hlook, fun _ => hlook⟩
  · next hd =>
    obtain ⟨rfl, rfl⟩ := h
    rw [if_neg hd, Names.getElem?_labels_of_le hle (by simp [Names.HasLabel])]
    exact ⟨by simp, fun h => absurd h hd⟩

theorem label_ok {r : Label} (h : Layouting.label depth head l s = .ok (r, l') s') :
    Labelled depth head.name s.names r s'.names ∧ l' = l := by
  unfold Layouting.label at h
  unfold Labelled
  split at h
  · next hd =>
    obtain ⟨hn, rfl⟩ := stateT_lift_ok.mp h
    obtain ⟨rfl, rfl⟩ := namedLabel_ok.mp hn
    exact ⟨if_pos hd ▸ ⟨rfl, rfl⟩, rfl⟩
  · next hd =>
    obtain ⟨hn, rfl⟩ := stateT_lift_ok.mp h
    obtain ⟨rfl, rfl⟩ := newLabel_ok.mp hn
    exact ⟨if_neg hd ▸ ⟨rfl, rfl⟩, rfl⟩

theorem make_ok {locals arguments : Word} {fp rv : Temp}
    (h : Frame.make label depth locals arguments fp rv = .ok f) :
    ∃ parts size, Word.checkedAdd locals arguments = .ok parts ∧
      Word.checkedAdd parts 16 = .ok size ∧ f = ⟨label, depth, locals, arguments, size, fp, rv⟩ := by
  obtain ⟨parts, hparts, h⟩ := except_bind_ok.mp h
  obtain ⟨size, hsize, h⟩ := except_bind_ok.mp h
  cases h
  exact ⟨parts, size, hparts, hsize, rfl⟩

/-- A frame gets the next two temporaries. -/
theorem frame_made {x : Extent} (h : frame depth label x l s = .ok (f, l') s') :
    Frame.make label depth x.locals x.arguments ⟨s.names.temps⟩ ⟨s.names.temps + 1⟩ = .ok f ∧
      s'.names = s.names.newTemp.2.newTemp.2 ∧ l' = l := by
  simp only [frame, stateT_bind_ok, stateT_lift_ok, stateT_pure_ok, newTemp_ok, exactly_ok,
    textOf_ok, note_ok] at h
  obtain ⟨_, _, _, ⟨⟨rfl, rfl⟩, rfl⟩, _, _, _, ⟨⟨rfl, rfl⟩, rfl⟩, _, _, _, ⟨⟨hf, rfl⟩, rfl⟩, _, _,
    _, ⟨⟨rfl, rfl⟩, rfl⟩, _, _, _, ⟨rfl, rfl⟩, rfl, rfl, rfl⟩ := h
  exact ⟨hf, rfl, rfl⟩

theorem function_ok (h : function depth head body l s = .ok ((), l') s') :
    ∃ label s₁ l₂ s₂ l₃ s₃ x l₄ s₄ frame, Labelled depth head.name s.names label s₁.names ∧
      params depth Word.size head.params l s₁ = .ok ((), l₂) s₂ ∧
      place head.ret l₂ s₂ = .ok ((), l₃) s₃ ∧ extent depth body l₃ s₃ = .ok (x, l₄) s₄ ∧
      Frame.make label depth x.locals x.arguments ⟨s₄.names.temps⟩ ⟨s₄.names.temps + 1⟩ =
        .ok frame ∧
      s'.names = s₄.names.newTemp.2.newTemp.2 ∧
      l' = { l₄ with frames := l₄.frames.insert head.id frame } := by
  simp only [function, stateT_bind_ok, stateT_modify_ok] at h
  obtain ⟨label, _, s₁, hlabel, _, l₂, s₂, hparams, _, l₃, s₃, hret, x, l₄, s₄, hx, frame, _, s₅,
    hframe, rfl, rfl⟩ := h
  obtain ⟨hlab, rfl⟩ := label_ok hlabel
  obtain ⟨hmake, hs, rfl⟩ := frame_made hframe
  exact ⟨label, s₁, l₂, s₂, l₃, s₃, x, _, s₄, _, hlab, hparams, hret, hx, hmake, hs, rfl⟩

/-- A function draws its label, makes its entries, and enters its frame with two temporaries. -/
theorem function_fills (h : function around.length head body l s = .ok ((), l') s') :
    ∃ n₁ l₁ n₂ frame, Labelled around.length head.name s.names frame.label n₁ ∧
      Fills (Item.function around head body).entries l n₁ l₁ n₂ ∧
      l' = { l₁ with frames := l₁.frames.insert head.id frame } ∧
      s'.names = n₂.newTemp.2.newTemp.2 ∧ frame.depth = around.length ∧
      frame.fp = ⟨n₂.temps⟩ ∧ frame.rv = ⟨n₂.temps + 1⟩ := by
  obtain ⟨label, s₁, l₂, s₂, l₃, s₃, x, l₄, s₄, frame, hlab, hparams, hret, hx, hmake, hs, rfl⟩ :=
    function_ok h
  obtain ⟨_, _, -, -, rfl⟩ := make_ok hmake
  exact ⟨_, _, _, _, hlab, ((makes_params _ _ _).fills hparams).append
    (((makes_place _).fills hret).append ((makes_extent _ _).fills hx)), rfl, hs, rfl, rfl, rfl⟩

/-- A variable at top level gets an address under the label of its name. -/
theorem decl_var_ok {v : Var} (h : decl (.var v) l s = .ok ((), l') s') :
    ∃ places size, v.ty.place l.accesses = .ok places ∧ v.ty.size = .ok size ∧
      s'.names = (s.names.named ("_" ++ v.name)).2 ∧
      l' = { l with
        accesses := places.insert v.id
          (.absolute (s.names.named ("_" ++ v.name)).1 size none) } := by
  simp only [decl, stateT_bind_ok, stateT_lift_ok, namedLabel_ok, exactly_ok] at h
  obtain ⟨_, _, _, hplace, _, _, _, ⟨⟨rfl, rfl⟩, rfl⟩, size, _, _, ⟨⟨hsize, rfl⟩, rfl⟩,
    haccess⟩ := h
  obtain ⟨places, hty, rfl, rfl⟩ := place_ok hplace
  obtain ⟨rfl, rfl⟩ := stateT_modify_ok.mp haccess
  exact ⟨places, size, hty, hsize, rfl, rfl⟩

theorem item_fills (h : item i l s = .ok ((), l') s') :
    ∃ n l₁ n₁ frames, Fills i.entries l n l₁ n₁ ∧ l' = { l₁ with frames } := by
  cases i with
  | function around head body =>
    obtain ⟨n₁, l₁, n₂, frame, -, hfills, rfl, -⟩ := function_fills h
    exact ⟨n₁, l₁, n₂, _, hfills, rfl⟩
  | var v =>
    obtain ⟨places, size, hty, -, -, rfl⟩ := decl_var_ok h
    exact ⟨s.names, _, s.names, l.frames, .type hty (.var (a := .absolute _ size none) .nil), rfl⟩

/-- What the entries of each item keep is kept along the list, unless it is about frames. -/
theorem forM_item_fills {P : Layout → Prop} (hframes : ∀ l frames, P l → P { l with frames })
    (hstep : ∀ i ∈ is, ∀ {l n l' n'}, Fills i.entries l n l' n' → P l → P l')
    (h : forM is item l s = .ok ((), l') s') (hl : P l) : P l' := by
  refine forM_item_induction (P := fun l _ => P l) (fun i hi {_ _ _ _} hok hP => ?_) h hl
  obtain ⟨_, _, _, frames, hfills, rfl⟩ := item_fills hok
  exact hframes _ frames (hstep i hi hfills hP)

theorem stops_item (i : Item) : Stops (item i) := by
  cases i with
  | var v =>
    exact (makes_place v.ty).stops.bind fun _ => (stops_lift (decides_namedLabel _)).bind fun _ =>
      (stops_lift (decides_exactly _)).bind fun _ => (makes_access _ _).stops
  | function around head body =>
    have hlabel : Stops (Layouting.label around.length head) := by
      unfold Layouting.label
      split
      · exact stops_lift (decides_namedLabel _)
      · exact stops_lift decides_newLabel
    have hframe : ∀ label x, Stops (frame around.length label x) := fun label x =>
      (stops_lift decides_newTemp).bind fun _ => (stops_lift decides_newTemp).bind fun _ =>
        (stops_lift (decides_exactly _)).bind fun _ => (stops_lift (decides_textOf _)).bind
          fun _ => (stops_lift (decides_note _)).bind fun _ => (makes_pure _).stops
    exact hlabel.bind fun label => (makes_params _ _ _).stops.bind fun _ =>
      (makes_place _).stops.bind fun _ => (makes_extent _ body).stops.bind fun x =>
        (hframe label x).bind fun _ _ => decides_pure trivial

theorem stops_items : ∀ is : List Item, Stops (forM is item)
  | [] => (makes_pure ()).stops
  | i :: is => by
    rw [List.forM_cons]
    exact (stops_item i).bind fun _ => stops_items is

/-! ## Frames -/

/-- A frame was made for a function with a name at a depth. -/
structure Made (k : Nat) (name : String) (n : Names) (f : Frame) : Prop where
  depth : f.depth = k
  text : n.labels[f.label.index]? = some (if k = 0 then some ("_" ++ name) else none)
  lookup : k = 0 → n.lookup ("_" ++ name) = some f.label
  ne : f.fp ≠ f.rv
  fp : n.HasTemp f.fp
  rv : n.HasTemp f.rv

theorem Made.hasLabel (h : Made depth name n f) : n.HasLabel f.label :=
  (Array.getElem?_eq_some_iff.mp h.text).1

theorem Made.mono (h : Made depth name n f) (hle : n ≤ n') : Made depth name n' f where
  depth := h.depth
  text := by rw [Names.getElem?_labels_of_le hle h.hasLabel, h.text]
  lookup hd := Names.lookup_of_le hle (h.lookup hd)
  ne := h.ne
  fp := Nat.lt_of_lt_of_le h.fp (Names.temps_le hle)
  rv := Nat.lt_of_lt_of_le h.rv (Names.temps_le hle)

/-- A function at top level is found by its name, and no other is found by a text. -/
theorem Made.lookup_iff {text : String} (h : Made depth name n f) :
    n.lookup text = some f.label ↔ depth = 0 ∧ text = "_" ++ name := by
  constructor
  · intro ht
    have hsame := (Names.getElem?_labels_of_lookup ht).symm.trans h.text
    split at hsame
    · next hd => exact ⟨hd, Option.some.inj (Option.some.inj hsame)⟩
    · cases Option.some.inj hsame
  · rintro ⟨hd, rfl⟩
    exact h.lookup hd

/-- A function enters the frame that is made for it, and nothing else does. -/
theorem item_frames (h : item i l s = .ok ((), l') s') :
    s.names ≤ s'.names ∧
      match i with
      | .var _ => l'.frames = l.frames
      | .function around head _ => ∃ n₁ frame,
        Labelled around.length head.name s.names frame.label n₁ ∧ n₁ ≤ s'.names ∧
        l'.frames = l.frames.insert head.id frame ∧ Made around.length head.name s'.names frame := by
  cases i with
  | var v =>
    obtain ⟨_, _, -, -, hs, rfl⟩ := decl_var_ok h
    exact ⟨hs ▸ Names.le_named _ _, rfl⟩
  | function around head body =>
    obtain ⟨n₁, l₁, n₂, frame, hlab, hfills, rfl, hs, hdepth, hfp, hrv⟩ := function_fills h
    have hle : n₁ ≤ s'.names := by
      rw [hs]
      exact Names.le_trans hfills.names (Names.le_trans (Names.le_newTemp _) (Names.le_newTemp _))
    obtain ⟨htext, hlook⟩ := hlab.text hle
    refine ⟨Names.le_trans hlab.le hle, n₁, frame, hlab, hle, by rw [hfills.frames], hdepth, htext,
      hlook, by simp [hfp, hrv], ?_, ?_⟩
    · rw [hs, hfp]
      exact Nat.lt_succ_of_lt (Nat.lt_succ_self _)
    · rw [hs, hrv]
      exact Nat.lt_succ_self _

theorem item_other_frames (h : item i l s = .ok ((), l') s') {d : DeclId}
    (hd : ∀ head, i.head? = some head → head.id ≠ d) : l'.frames[d]? = l.frames[d]? := by
  have hframes := (item_frames h).2
  cases i with
  | var v => rw [show l'.frames = l.frames from hframes]
  | function around head body =>
    obtain ⟨_, _, -, -, heq, -⟩ := hframes
    rw [heq, Table.getElem?_insert_of_ne (hd head rfl)]

theorem forM_item_names (h : forM is item l s = .ok ((), l') s') : s.names ≤ s'.names :=
  forM_item_induction (P := fun _ t => s.names ≤ t.names)
    (fun _ _ {_ _ _ _} hi hle => Names.le_trans hle (item_frames hi).1) h (Names.le_refl _)

end Items

section Program

variable {p : Program} {l l' : Layout} {s s' : Session} {n n' : Names} {d : DeclId} {i : Item}
  {before after : List Item} {around : List Head} {head : Head} {body : Option Expr}

/-- Each item is laid out once, between those before it and those after it. -/
theorem layout_split (h : p.layout s = .ok l s') (hi : i ∈ p.items) :
    ∃ before after l₁ s₁ l₂ s₂, p.items = before ++ i :: after ∧
      forM before item {} s = .ok ((), l₁) s₁ ∧ item i l₁ s₁ = .ok ((), l₂) s₂ ∧
        forM after item l₂ s₂ = .ok ((), l) s' := by
  have hall := layout_items h
  obtain ⟨before, after, hsplit⟩ := List.append_of_mem hi
  rw [hsplit] at hall
  obtain ⟨l₁, s₁, hbefore, hrest⟩ := forM_item_append hall
  obtain ⟨l₂, s₂, hown, hafter⟩ := forM_item_cons hrest
  exact ⟨before, after, l₁, s₁, l₂, s₂, hsplit, hbefore, hown, hafter⟩

/-- Every frame was made for a function of the program. -/
theorem layout_framed (h : p.layout s = .ok l s') {f : Frame} (hf : l.frames[d]? = some f) :
    ∃ around head body, Item.function around head body ∈ p.items ∧ head.id = d ∧
      Made around.length head.name s'.names f := by
  refine forM_item_induction (P := fun l t => ∀ {d : DeclId} {f : Frame}, l.frames[d]? = some f →
    ∃ around head body, Item.function around head body ∈ p.items ∧ head.id = d ∧
      Made around.length head.name t.names f) ?_ (layout_items h) (by simp) hf
  intro i hi l₁ l₂ s₁ s₂ hok hl d f hf
  obtain ⟨hle, hframes⟩ := item_frames hok
  have hold : l₁.frames[d]? = some f → ∃ around head body,
      Item.function around head body ∈ p.items ∧ head.id = d ∧
        Made around.length head.name s₂.names f := fun hf => by
    obtain ⟨around, head, body, hmem, hid, hmade⟩ := hl hf
    exact ⟨around, head, body, hmem, hid, hmade.mono hle⟩
  cases i with
  | var v => exact hold (hframes ▸ hf)
  | function around head body =>
    obtain ⟨_, frame, -, -, heq, hmade⟩ := hframes
    rw [heq] at hf
    rcases Table.of_getElem?_insert hf with ⟨hid, rfl⟩ | ⟨-, hf⟩
    · exact ⟨around, head, body, hi, hid, hmade⟩
    · exact hold hf

theorem frame_kept (hids : (p.heads.map (·.id)).Nodup)
    (hsplit : p.items = before ++ .function around head body :: after)
    (hafter : forM after item l s = .ok ((), l') s') :
    l'.frames[head.id]? = l.frames[head.id]? := by
  rw [← Program.filterMap_items, hsplit] at hids
  simp only [List.filterMap_append, List.filterMap_cons, Item.head?, List.map_append,
    List.map_cons] at hids
  refine forM_item_induction (P := fun l₁ _ => l₁.frames[head.id]? = l.frames[head.id]?) ?_ hafter
    rfl
  intro i hi l₁ l₂ s₁ s₂ hok hl₁
  rw [item_other_frames hok fun head' hh heq => ?_, hl₁]
  exact (List.nodup_cons.mp (List.nodup_append.mp hids).2.1).1
    (heq ▸ List.mem_map_of_mem (f := Head.id) (List.mem_filterMap.mpr ⟨i, hi, hh⟩))

/-- The frame of a function of the list is the one that was made for it. -/
theorem layout_frame (h : p.layout s = .ok l s') (hids : (p.heads.map (·.id)).Nodup)
    (hi : Item.function around head body ∈ p.items) :
    ∃ frame, l.frames[head.id]? = some frame ∧ Made around.length head.name s'.names frame := by
  obtain ⟨before, after, l₁, s₁, l₂, s₂, hsplit, -, hown, hafter⟩ := layout_split h hi
  obtain ⟨-, _, frame, -, -, hfr, hmade⟩ := item_frames hown
  refine ⟨frame, ?_, hmade.mono (forM_item_names hafter)⟩
  rw [frame_kept hids hsplit hafter, hfr, Std.ExtTreeMap.getElem?_insert_self]

theorem made_of_frame (h : p.layout s = .ok l s') (hids : (p.heads.map (·.id)).Nodup)
    (hi : Item.function around head body ∈ p.items) {f : Frame}
    (hf : l.frames[head.id]? = some f) : Made around.length head.name s'.names f := by
  obtain ⟨frame, hframe, hmade⟩ := layout_frame h hids hi
  rwa [Option.some.inj (hf.symm.trans hframe)]

/-- The frame pointers of all frames were handed out. -/
def Handed (l : Layout) (n : Names) : Prop :=
  ∀ ⦃d : DeclId⦄ ⦃f : Frame⦄, l.frames[d]? = some f → f.fp.index < n.temps

theorem layout_handed (h : p.layout s = .ok l s') : Handed l s'.names := by
  intro d f hf
  obtain ⟨_, _, _, -, -, hmade⟩ := layout_framed h hf
  exact hmade.fp

/-- Every place is that of an entry. -/
theorem layout_access (h : p.layout s = .ok l s') {a : Access} (ha : l.accesses[d]? = some a) :
    ∃ i ∈ p.items, Gives i.entries d a.depth? := by
  refine forM_item_fills (P := fun l => ∀ {d : DeclId} {a : Access}, l.accesses[d]? = some a →
    ∃ i ∈ p.items, Gives i.entries d a.depth?) (fun _ _ h => h) ?_
    (layout_items h) (by simp) ha
  intro i hi l₁ n₁ l₂ n₂ hfills hl d a ha
  rcases hfills.access d with hsame | ⟨b, hb, hmem⟩
  · exact hl (hsame ▸ ha)
  · obtain rfl := Option.some.inj (hb.symm.trans ha)
    exact ⟨i, hi, hmem⟩

/-- A declaration has an address of its own. -/
def Addressed (places : Table DeclId Access) (d : DeclId) : Prop :=
  ∃ label size init, places[d]? = some (.absolute label size init)

/-- What has an address of its own is a variable at top level. -/
theorem var_of_addressed (h : p.layout s = .ok l s') (hd : Addressed l.accesses d) :
    ∃ v, Decl.var v ∈ p.decls ∧ v.id = d := by
  obtain ⟨label, size, init, ha⟩ := hd
  obtain ⟨i, hi, hvar | ⟨hdepth, -⟩⟩ := layout_access h ha
  · obtain ⟨hd, hdepth⟩ := Item.var_mem_entries.mp hvar
    rcases Program.mem_items_iff.mp hi with hi | ⟨v, rfl, hv⟩
    · obtain ⟨_, _, _, rfl, -⟩ := Routine.function_of_mem_listItems hi
      cases hdepth
    · exact ⟨v, hv, (List.mem_singleton.mp hd).symm⟩
  · cases hdepth

/-! ## Labels of frames -/

/-- Labels without a text tell frames apart. -/
structure Unshared (l : Layout) (n : Names) : Prop where
  old : ∀ ⦃d : DeclId⦄ ⦃f : Frame⦄, l.frames[d]? = some f → n.HasLabel f.label
  inj : ∀ ⦃d d' : DeclId⦄ ⦃f f' : Frame⦄, l.frames[d]? = some f → l.frames[d']? = some f' →
    f.label = f'.label → n.labels[f.label.index]? = some none → d = d'

theorem Unshared.mono (h : Unshared l n) (hle : n ≤ n') (hl : l'.frames = l.frames) :
    Unshared l' n' where
  old _ _ hf := Nat.lt_of_lt_of_le (h.old (hl ▸ hf)) (Names.labels_le hle)
  inj _ _ _ _ hf hf' heq hnone :=
    h.inj (hl ▸ hf) (hl ▸ hf') heq
      (Names.getElem?_labels_of_le hle (h.old (hl ▸ hf)) ▸ hnone)

/-- A label without a text was drawn anew, so no frame had it. -/
theorem Labelled.fresh {depth : Nat} {name : String} {label : Label} {n₁ : Names}
    (h : Labelled depth name n label n₁) (hle : n₁ ≤ n')
    (hnone : n'.labels[label.index]? = some none) : ¬ n.HasLabel label := by
  have htext := (h.text hle).1
  unfold Labelled at h
  split at h
  · next hd => simp [hnone, hd] at htext
  · simp [h.1, Names.HasLabel]

theorem item_unshared (h : item i l s = .ok ((), l') s') (hl : Unshared l s.names) :
    Unshared l' s'.names := by
  obtain ⟨hle, hframes⟩ := item_frames h
  have hold := hl.mono hle rfl
  cases i with
  | var v => exact hl.mono hle hframes
  | function around head body =>
    obtain ⟨n₁, frame, hlab, hle₁, heq, hmade⟩ := hframes
    -- no frame had a label without a text that the function got
    have hnew : ∀ {d : DeclId} {f : Frame}, l.frames[d]? = some f →
        s'.names.labels[frame.label.index]? = some none → f.label ≠ frame.label :=
      fun hf hnone hsame => hlab.fresh hle₁ hnone (hsame ▸ hl.old hf)
    constructor
    · intro d f hf
      rcases Table.of_getElem?_insert (heq ▸ hf) with ⟨-, rfl⟩ | ⟨-, hf⟩
      · exact hmade.hasLabel
      · exact hold.old hf
    · intro d d' f f' hf hf' hsame hnone
      rcases Table.of_getElem?_insert (heq ▸ hf) with ⟨rfl, rfl⟩ | ⟨-, hf⟩ <;>
        rcases Table.of_getElem?_insert (heq ▸ hf') with ⟨rfl, rfl⟩ | ⟨-, hf'⟩
      · rfl
      · exact absurd hsame.symm (hnew hf' hnone)
      · exact absurd hsame (hnew hf (hsame ▸ hnone))
      · exact hold.inj hf hf' hsame hnone

/-- The labels of frames tell functions apart: one with a text is that of a function at top level,
found by its name, and no two functions have the same. -/
structure Distinct (tops : List Head) (l : Layout) (n : Names) : Prop where
  old : ∀ ⦃d : DeclId⦄ ⦃f : Frame⦄, l.frames[d]? = some f → n.HasLabel f.label
  inj : ∀ ⦃d d' : DeclId⦄ ⦃f f' : Frame⦄, l.frames[d]? = some f → l.frames[d']? = some f' →
    f.label = f'.label → d = d'
  named : ∀ ⦃d : DeclId⦄ ⦃f : Frame⦄ ⦃text : String⦄, l.frames[d]? = some f →
    n.labels[f.label.index]? = some (some text) →
    ∃ head ∈ tops, head.id = d ∧ text = "_" ++ head.name
  top : ∀ head ∈ tops, ∃ f, l.frames[head.id]? = some f ∧
    n.lookup ("_" ++ head.name) = some f.label

theorem Distinct.mono {tops : List Head} (h : Distinct tops l n) (hle : n ≤ n')
    (hl : l'.frames = l.frames) : Distinct tops l' n' where
  old d f hf := Nat.lt_of_lt_of_le (h.old (hl ▸ hf)) (Names.labels_le hle)
  inj d d' f f' hf hf' := h.inj (hl ▸ hf) (hl ▸ hf')
  named d f text hf ht := by
    rw [Names.getElem?_labels_of_le hle (h.old (hl ▸ hf))] at ht
    exact h.named (hl ▸ hf) ht
  top head hh := by
    obtain ⟨f, hf, hlook⟩ := h.top head hh
    exact ⟨f, hl ▸ hf, Names.lookup_of_le hle hlook⟩

/-- A frame whose label has a text is that of a function at top level. -/
theorem top_of_text (h : p.layout s = .ok l s') {f : Frame} {text : String}
    (hf : l.frames[d]? = some f) (ht : s'.names.labels[f.label.index]? = some (some text)) :
    ∃ head ∈ (Decl.listRoutines p.decls).map Routine.head, head.id = d ∧
      text = "_" ++ head.name := by
  obtain ⟨around, head, body, hi, hid, hmade⟩ := layout_framed h hf
  have htext := ht.symm.trans hmade.text
  split at htext
  · next hd =>
    obtain rfl := List.length_eq_zero_iff.mp hd
    exact ⟨head, Program.top_iff.mpr ⟨body, hi⟩, hid, Option.some.inj (Option.some.inj htext)⟩
  · cases Option.some.inj htext

theorem layout_distinct (h : p.layout s = .ok l s') (hids : (p.heads.map (·.id)).Nodup)
    (hnames : ((Decl.listRoutines p.decls).map (·.head.name)).Nodup) :
    Distinct ((Decl.listRoutines p.decls).map Routine.head) l s'.names := by
  have hunshared : Unshared l s'.names :=
    forM_item_induction (P := fun l t => Unshared l t.names)
      (fun _ _ {_ _ _ _} hok hl => item_unshared hok hl) (layout_items h) ⟨by simp, by simp⟩
  refine ⟨hunshared.old, fun d d' f f' hf hf' hsame => ?_, fun d f text hf => top_of_text h hf,
    fun head hh => ?_⟩
  · cases ht : s'.names.labels[f.label.index]? with
    | none => exact absurd (hunshared.old hf) (Nat.not_lt.mpr (Array.getElem?_eq_none_iff.mp ht))
    | some text =>
      cases text with
      | none => exact hunshared.inj hf hf' hsame ht
      | some text =>
        -- both are at top level and have the same name
        obtain ⟨head, hh, rfl, htext⟩ := top_of_text h hf ht
        obtain ⟨head', hh', rfl, htext'⟩ := top_of_text h hf' (hsame ▸ ht)
        have hnames : (((Decl.listRoutines p.decls).map Routine.head).map (·.name)).Nodup := by
          rwa [List.map_map]
        refine congrArg Head.id (List.inj_on_of_nodup_map hnames hh hh' ?_)
        exact String.append_right_inj _ |>.mp (htext.symm.trans htext')
  · obtain ⟨body, hi⟩ := Program.top_iff.mp hh
    obtain ⟨f, hf, hmade⟩ := layout_frame h hids hi
    exact ⟨f, hf, hmade.lookup rfl⟩

end Program

end Layouting

end MmixBackend
