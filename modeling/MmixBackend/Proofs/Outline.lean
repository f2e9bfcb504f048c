import Mathlib.Data.List.Forall2
import MmixBackend.Proofs.Evaluation
import MmixBackend.Proofs.Pass

/-!
# A program as a list

Laying out goes into the functions inside a function after the function itself.  So it goes along
a list: the functions of a program, each with the functions around it, and the variables at top
level.  What laying out leaves behind is then said of one item of the list at a time, with
what came before it and what comes after.

With different numbers for all functions, the frame that is left for a function is the one that was
made for it; and a function has a label with a text only at top level, where the text is its name.
-/

namespace MmixBackend

open Typed Build

/-- What is in one of two lists that go together has its counterpart in the other. -/
theorem exists_rel_of_mem {α β : Type} {R : α → β → Prop} {as : List α} {bs : List β}
    (h : List.Forall₂ R as bs) : ∀ a ∈ as, ∃ b ∈ bs, R a b := by
  induction h with
  | nil => exact fun a ha => by cases ha
  | cons hr _ ih =>
    intro a ha
    rcases List.mem_cons.mp ha with rfl | ha
    · exact ⟨_, List.mem_cons_self, hr⟩
    · obtain ⟨b, hb, hab⟩ := ih a ha
      exact ⟨b, List.mem_cons_of_mem _ hb, hab⟩

mutual

/-- The functions of a tree, with or without a body, each before those inside it. -/
def Typed.Routine.heads : Routine → List Head
  | .mk head _ inner => head :: Typed.Routine.listHeads inner

def Typed.Routine.listHeads : List Routine → List Head
  | [] => []
  | r :: rs => r.heads ++ Typed.Routine.listHeads rs

end

/-- The function at the root of a tree. -/
def Typed.Routine.head : Routine → Head
  | .mk head _ _ => head

namespace Typed

/-- The node of an integer. -/
abbrev Node.value (id : UInt32) : Node := ⟨⟨id⟩, .int, false, {}⟩

/-- The node of an integer in memory. -/
abbrev Node.place (id : UInt32) : Node := ⟨⟨id⟩, .int, true, {}⟩

/-- What is laid out at once: a function with the functions around it, the innermost first, or a
variable at top level. -/
inductive Item where
  | function (around : List Head) (head : Head) (body : Option Expr)
  | var (v : Var)

mutual

/-- The functions of a tree, each before those inside it. -/
def Routine.items (around : List Head) : Routine → List Item
  | .mk head body inner => .function around head body :: Routine.listItems (head :: around) inner

def Routine.listItems (around : List Head) : List Routine → List Item
  | [] => []
  | r :: rs => r.items around ++ Routine.listItems around rs

end

theorem Routine.listItems_append (around : List Head) (rs rs' : List Routine) :
    Routine.listItems around (rs ++ rs') =
      Routine.listItems around rs ++ Routine.listItems around rs' := by
  induction rs with
  | nil => rfl
  | cons r rs ih => rw [List.cons_append, Routine.listItems, Routine.listItems, ih,
      List.append_assoc]

/-- What a declaration at top level declares, with what is inside. -/
def Decl.items : Decl → List Item
  | .var v => [.var v]
  | .foreign head => (Routine.mk head none []).items []
  | .fn head body => (Routine.mk head (some body) body.routines).items []

/-- Everything in a program that is laid out. -/
def Program.items (p : Program) : List Item := p.decls.flatMap Decl.items

/-- The functions of a program, with or without a body. -/
def Program.heads (p : Program) : List Head := Routine.listHeads (Decl.listRoutines p.decls)

def Item.head? : Item → Option Head
  | .function _ head _ => some head
  | .var _ => none

mutual

theorem Routine.filterMap_items :
    ∀ (around : List Head) (r : Routine), (r.items around).filterMap Item.head? = r.heads
  | around, .mk head body inner => by
    rw [Routine.items, Routine.heads, List.filterMap_cons, Item.head?,
      Routine.filterMap_listItems (head :: around) inner]

theorem Routine.filterMap_listItems :
    ∀ (around : List Head) (rs : List Routine),
      (Routine.listItems around rs).filterMap Item.head? = Routine.listHeads rs
  | _, [] => rfl
  | around, r :: rs => by
    rw [Routine.listItems, Routine.listHeads, List.filterMap_append,
      Routine.filterMap_items around r, Routine.filterMap_listItems around rs]

end

theorem Program.filterMap_items (p : Program) : p.items.filterMap Item.head? = p.heads := by
  unfold Program.items Program.heads
  generalize p.decls = ds
  induction ds with
  | nil => rfl
  | cons d ds ih =>
    rw [List.flatMap_cons, List.filterMap_append, ih, Decl.listRoutines]
    cases d with
    | var v => rfl
    | foreign head | fn head body =>
      rw [Decl.items, Routine.filterMap_items, Decl.routine?, Option.toList_some,
        List.singleton_append, Routine.listHeads]

mutual

theorem Routine.exists_item :
    ∀ (outer : List Head) {r : Routine} {f : Head × Expr}, f ∈ r.functions →
      ∃ around, Item.function around f.1 (some f.2) ∈ r.items outer
  | _, .mk head none inner, _, hf => by cases hf
  | outer, .mk head (some body) inner, f, hf => by
    rw [Routine.functions, List.mem_append, List.mem_singleton] at hf
    rcases hf with hf | rfl
    · obtain ⟨around, hi⟩ := Routine.exists_listItem (head :: outer) hf
      exact ⟨around, List.mem_cons_of_mem _ hi⟩
    · exact ⟨outer, List.mem_cons_self⟩

theorem Routine.exists_listItem :
    ∀ (outer : List Head) {rs : List Routine} {f : Head × Expr}, f ∈ Routine.listFunctions rs →
      ∃ around, Item.function around f.1 (some f.2) ∈ Routine.listItems outer rs
  | _, [], _, hf => by cases hf
  | outer, r :: rs, f, hf => by
    rw [Routine.listFunctions, List.mem_append] at hf
    rcases hf with hf | hf
    · obtain ⟨around, hi⟩ := Routine.exists_item outer hf
      exact ⟨around, List.mem_append_left _ hi⟩
    · obtain ⟨around, hi⟩ := Routine.exists_listItem outer hf
      exact ⟨around, List.mem_append_right _ hi⟩

end

mutual

/-- The items of a tree are functions, with those around the tree around them. -/
theorem Routine.function_of_mem_items {i : Item} :
    ∀ {outer : List Head} {r : Routine}, i ∈ r.items outer →
      ∃ around head body, i = .function around head body ∧ outer <:+ around
  | outer, .mk head body _, h => by
    rcases List.mem_cons.mp h with rfl | h
    · exact ⟨outer, head, body, rfl, List.suffix_refl _⟩
    · obtain ⟨around, f, e, rfl, hsuffix⟩ := Routine.function_of_mem_listItems h
      exact ⟨around, f, e, rfl, (List.suffix_cons _ _).trans hsuffix⟩

theorem Routine.function_of_mem_listItems {i : Item} :
    ∀ {outer : List Head} {rs : List Routine}, i ∈ Routine.listItems outer rs →
      ∃ around head body, i = .function around head body ∧ outer <:+ around
  | _, [], h => by cases h
  | _, _ :: _, h => by
    rcases List.mem_append.mp h with h | h
    · exact Routine.function_of_mem_items h
    · exact Routine.function_of_mem_listItems h

end

variable {body : Option Expr} {head : Head} {p : Program}

/-- A tree has its root as the only item with no function around it. -/
theorem Routine.nil_mem_items {r : Routine} :
    Item.function [] head body ∈ r.items [] ↔ ∃ inner, r = .mk head body inner := by
  obtain ⟨g, e, inner⟩ := r
  rw [Routine.items, List.mem_cons]
  constructor
  · rintro (h | h)
    · cases h
      exact ⟨inner, rfl⟩
    · obtain ⟨_, _, _, hi, hsuffix⟩ := Routine.function_of_mem_listItems h
      cases hi
      exact absurd (List.suffix_nil.mp hsuffix) (List.cons_ne_nil _ _)
  · rintro ⟨_, h⟩
    cases h
    exact Or.inl rfl

theorem Routine.nil_mem_listItems {rs : List Routine} :
    Item.function [] head body ∈ Routine.listItems [] rs ↔
      ∃ inner, Routine.mk head body inner ∈ rs := by
  induction rs with
  | nil => simp [Routine.listItems]
  | cons r rs ih => simp [Routine.listItems, Routine.nil_mem_items, ih, exists_or, eq_comm]

/-- The functions at top level are those with no function around them. -/
theorem Program.item_nil_iff {body : Expr} :
    Item.function [] head (some body) ∈ p.items ↔ Decl.fn head body ∈ p.decls := by
  constructor
  · intro h
    obtain ⟨d, hd, h⟩ := List.mem_flatMap.mp h
    cases d with
    | var v => simp [Decl.items] at h
    | foreign g => simp [Decl.items, Routine.items, Routine.listItems] at h
    | fn g e =>
      obtain ⟨_, h⟩ := Routine.nil_mem_items.mp h
      cases h
      exact hd
  · intro h
    exact List.mem_flatMap.mpr ⟨_, h, List.mem_cons_self⟩

/-! ### Trees that come from a body -/

mutual

/-- The functions inside of each are those that its body declares. -/
def Routine.Rooted : Routine → Prop
  | .mk _ none inner => inner = []
  | .mk _ (some body) inner => inner = body.routines ∧ Routine.AllRooted inner

def Routine.AllRooted : List Routine → Prop
  | [] => True
  | r :: rs => r.Rooted ∧ Routine.AllRooted rs

end

theorem Routine.AllRooted.append {rs rs' : List Routine} (h : Routine.AllRooted rs)
    (h' : Routine.AllRooted rs') : Routine.AllRooted (rs ++ rs') := by
  induction rs with
  | nil => exact h'
  | cons r rs ih => exact ⟨h.1, ih h.2⟩

mutual

theorem Expr.allRooted_routines : ∀ e : Expr, Routine.AllRooted e.routines
  | .atom .. | .name .. => trivial
  | .index _ a b | .binary _ _ a b => (Expr.allRooted_routines a).append (Expr.allRooted_routines b)
  | .field _ e _ | .unary _ _ e | .deref _ e | .cast _ _ e => Expr.allRooted_routines e
  | .call _ _ args => Expr.allRooted_listRoutines args
  | .block _ body => Stmt.allRooted_listRoutines body
  | .scope _ e decls =>
    (Decl.allRooted_listRoutines decls).append (Expr.allRooted_routines e)

theorem Expr.allRooted_listRoutines : ∀ es : List Expr, Routine.AllRooted (Expr.listRoutines es)
  | [] => trivial
  | e :: es => (Expr.allRooted_routines e).append (Expr.allRooted_listRoutines es)

theorem Stmt.allRooted_routines : ∀ s : Stmt, Routine.AllRooted s.routines
  | .assign _ dst src => (Expr.allRooted_routines dst).append (Expr.allRooted_routines src)
  | .eval _ e => Expr.allRooted_routines e
  | .cond _ test yes no =>
    ((Expr.allRooted_routines test).append (Stmt.allRooted_listRoutines yes)).append
      (Stmt.allRooted_listRoutines no)
  | .loop _ test body => (Expr.allRooted_routines test).append (Stmt.allRooted_listRoutines body)

theorem Stmt.allRooted_listRoutines : ∀ ss : List Stmt, Routine.AllRooted (Stmt.listRoutines ss)
  | [] => trivial
  | s :: ss => (Stmt.allRooted_routines s).append (Stmt.allRooted_listRoutines ss)

theorem Decl.allRooted_routine : ∀ d : Decl, Routine.AllRooted d.routine?.toList
  | .var _ => trivial
  | .foreign _ => ⟨rfl, trivial⟩
  | .fn _ body => ⟨⟨rfl, Expr.allRooted_routines body⟩, trivial⟩

theorem Decl.allRooted_listRoutines : ∀ ds : List Decl, Routine.AllRooted (Decl.listRoutines ds)
  | [] => trivial
  | d :: ds => (Decl.allRooted_routine d).append (Decl.allRooted_listRoutines ds)

end

mutual

/-- A function with a body among the items of a tree comes with those inside it. -/
theorem Routine.Rooted.closed {around : List Head} {head : Head} {body : Expr} :
    ∀ {r : Routine} {outer : List Head}, r.Rooted →
      Item.function around head (some body) ∈ r.items outer →
      (Routine.mk head (some body) body.routines).items around ⊆ r.items outer ∧
        (head, body) ∈ r.functions
  | .mk _ none inner, _, hr, h => by
    obtain rfl : inner = [] := hr
    simp [Routine.items, Routine.listItems] at h
  | .mk g (some e) inner, outer, hr, h => by
    obtain ⟨rfl, hinner⟩ := hr
    rcases List.mem_cons.mp h with h | h
    · cases h
      exact ⟨List.Subset.refl _, List.mem_append_right _ (List.mem_singleton_self _)⟩
    · obtain ⟨hsub, hmem⟩ := Routine.AllRooted.closed hinner h
      exact ⟨fun i hi => List.mem_cons_of_mem _ (hsub hi), List.mem_append_left _ hmem⟩

theorem Routine.AllRooted.closed {around : List Head} {head : Head} {body : Expr} :
    ∀ {rs : List Routine} {outer : List Head}, Routine.AllRooted rs →
      Item.function around head (some body) ∈ Routine.listItems outer rs →
      (Routine.mk head (some body) body.routines).items around ⊆ Routine.listItems outer rs ∧
        (head, body) ∈ Routine.listFunctions rs
  | [], _, _, h => by cases h
  | r :: rs, outer, hrs, h => by
    rw [Routine.listItems] at h ⊢
    rcases List.mem_append.mp h with h | h
    · obtain ⟨hsub, hmem⟩ := Routine.Rooted.closed hrs.1 h
      exact ⟨fun i hi => List.mem_append_left _ (hsub hi), List.mem_append_left _ hmem⟩
    · obtain ⟨hsub, hmem⟩ := Routine.AllRooted.closed hrs.2 h
      exact ⟨fun i hi => List.mem_append_right _ (hsub hi), List.mem_append_right _ hmem⟩

end

/-- The items of a program are those of its trees and its variables at top level. -/
theorem Program.mem_items_iff {i : Item} :
    i ∈ p.items ↔ i ∈ Routine.listItems [] (Decl.listRoutines p.decls) ∨
      ∃ v, i = .var v ∧ Decl.var v ∈ p.decls := by
  unfold Program.items
  induction p.decls with
  | nil => simp [Decl.listRoutines, Routine.listItems]
  | cons d ds ih =>
    rw [List.flatMap_cons, List.mem_append, ih, Decl.listRoutines]
    cases d with
    | var v => simp [Decl.items, Decl.routine?, and_or_left, exists_or, or_left_comm]
    | foreign g | fn g e => simp [Decl.items, Decl.routine?, Routine.listItems, or_assoc]

theorem Program.function_mem_items {around : List Head} :
    Item.function around head body ∈ p.items ↔
      Item.function around head body ∈ Routine.listItems [] (Decl.listRoutines p.decls) := by
  simp [Program.mem_items_iff]

/-- The functions at top level are the roots of the trees. -/
theorem Program.top_iff :
    head ∈ (Decl.listRoutines p.decls).map Routine.head ↔
      ∃ body, Item.function [] head body ∈ p.items := by
  simp only [List.mem_map, Program.function_mem_items, Routine.nil_mem_listItems]
  constructor
  · rintro ⟨⟨_, body, inner⟩, hr, rfl⟩
    exact ⟨body, inner, hr⟩
  · rintro ⟨body, inner, hr⟩
    exact ⟨_, hr, rfl⟩

/-- Every function with a body is among the items. -/
theorem Program.exists_item {f : Head × Expr} (hf : f ∈ p.functions) :
    ∃ around, Item.function around f.1 (some f.2) ∈ p.items :=
  (Routine.exists_listItem [] hf).imp fun _ => Program.function_mem_items.mpr

/-- A function with a body comes with those inside it. -/
theorem Program.items_closed {around : List Head} {body : Expr}
    (h : Item.function around head (some body) ∈ p.items) :
    (Routine.mk head (some body) body.routines).items around ⊆ p.items ∧
      (head, body) ∈ p.functions := by
  obtain ⟨hsub, hmem⟩ :=
    (Decl.allRooted_listRoutines p.decls).closed (Program.function_mem_items.mp h)
  exact ⟨fun i hi => Program.mem_items_iff.mpr (Or.inl (hsub hi)), hmem⟩

end Typed

namespace Layouting

/-! ## Along the list -/

def label (depth : Nat) (head : Head) : Layouting Label :=
  if depth = 0 then Build.namedLabel ("_" ++ head.name) else Build.newLabel

/-- Finds out what a body needs. -/
def extent (depth : Nat) : Option Expr → Layouting Extent
  | some body => body.within.foldlM (visit depth) {}
  | none => pure {}

def frame (depth : Nat) (label : Label) (x : Extent) : Layouting Frame := do
  let fp ← Build.newTemp
  let rv ← Build.newTemp
  let frame ← Build.exactly (Frame.make label depth x.locals x.arguments fp rv)
  let text ← Build.textOf label
  Build.note (.framed text depth frame.locals frame.arguments frame.size)
  return frame

theorem routine_eq (depth : Nat) (head : Head) (body : Option Expr) (inner : List Routine) :
    routine depth (.mk head body inner) = (do
      let label ← label depth head
      params depth Word.size head.params
      place head.ret
      let x ← extent depth body
      let frame ← frame depth label x
      modify fun l => { l with frames := l.frames.insert head.id frame }
      routines (depth + 1) inner) := by
  unfold label frame
  by_cases hd : depth = 0 <;> cases body <;>
    simp only [routine, extent, hd, if_true, if_false, bind_assoc, pure_bind]

/-- Lays out a function without those inside it. -/
def function (depth : Nat) (head : Head) (body : Option Expr) : Layouting Unit := do
  let label ← label depth head
  params depth Word.size head.params
  place head.ret
  let x ← extent depth body
  let frame ← frame depth label x
  modify fun l => { l with frames := l.frames.insert head.id frame }

def item : Item → Layouting Unit
  | .function around head body => function around.length head body
  | .var v => decl (.var v)

mutual

theorem routine_eq_forM :
    ∀ (around : List Head) (r : Routine), routine around.length r = forM (r.items around) item
  | around, .mk head body inner => by
    have hinner := routines_eq_forM (head :: around) inner
    rw [List.length_cons] at hinner
    rw [routine_eq, Routine.items, List.forM_cons, item, function]
    simp only [bind_assoc, hinner]

theorem routines_eq_forM :
    ∀ (around : List Head) (rs : List Routine),
      routines around.length rs = forM (Routine.listItems around rs) item
  | _, [] => by rw [routines, Routine.listItems, List.forM_nil]
  | around, r :: rs => by
    rw [routines, Routine.listItems, List.forM_append, routine_eq_forM around r,
      routines_eq_forM around rs]

end

theorem decl_eq_forM (d : Decl) : decl d = forM d.items item := by
  cases d with
  | var v => rw [Decl.items, List.forM_cons, List.forM_nil, item, bind_pure_unit]
  | foreign head | fn head body => exact routine_eq_forM [] _

/-- Declarations are laid out item by item. -/
theorem forM_decl_eq (ds : List Decl) : ds.forM decl = forM (ds.flatMap Decl.items) item := by
  rw [List.forM_eq_forM]
  induction ds with
  | nil => rw [List.forM_nil, List.flatMap_nil, List.forM_nil]
  | cons d ds ih => rw [List.forM_cons, List.flatMap_cons, List.forM_append, ih, decl_eq_forM]

/-- A layout is what its declarations leave of an empty one. -/
theorem layout_ok {p : Program} {s s' : Session} {l : Layout} (h : p.layout s = .ok l s') :
    p.decls.forM decl {} s = .ok ((), l) s' := by
  simp only [Program.layout, bind_ok, pure_ok, Prod.exists] at h
  obtain ⟨_, _, _, h, rfl, rfl⟩ := h
  exact h

theorem layout_items {p : Program} {s s' : Session} {l : Layout} (h : p.layout s = .ok l s') :
    forM p.items item {} s = .ok ((), l) s' := by
  rw [← layout_ok h, forM_decl_eq, Program.items]

section Items

variable {l l' : Layout} {s s' : Session} {is is' : List Item} {i : Item}

theorem forM_item_nil (h : forM [] item l s = .ok ((), l') s') : l' = l ∧ s' = s := by
  rw [List.forM_nil] at h
  exact (stateT_pure_ok.mp h).2

theorem forM_item_cons (h : forM (i :: is) item l s = .ok ((), l') s') :
    ∃ l₁ s₁, item i l s = .ok ((), l₁) s₁ ∧ forM is item l₁ s₁ = .ok ((), l') s' := by
  rw [List.forM_cons] at h
  obtain ⟨_, l₁, s₁, hi, his⟩ := stateT_bind_ok.mp h
  exact ⟨l₁, s₁, hi, his⟩

theorem forM_item_append (h : forM (is ++ is') item l s = .ok ((), l') s') :
    ∃ l₁ s₁, forM is item l s = .ok ((), l₁) s₁ ∧ forM is' item l₁ s₁ = .ok ((), l') s' := by
  rw [List.forM_append] at h
  obtain ⟨_, l₁, s₁, his, his'⟩ := stateT_bind_ok.mp h
  exact ⟨l₁, s₁, his, his'⟩

/-- What laying out each item keeps is kept along the list. -/
theorem forM_item_induction {P : Layout → Session → Prop}
    (hstep : ∀ i ∈ is, ∀ {l l' : Layout} {s s' : Session}, item i l s = .ok ((), l') s' → P l s →
      P l' s') :
    ∀ {l : Layout} {s : Session}, forM is item l s = .ok ((), l') s' → P l s → P l' s' := by
  induction is with
  | nil =>
    intro l s h hP
    obtain ⟨rfl, rfl⟩ := forM_item_nil h
    exact hP
  | cons i is ih =>
    intro l s h hP
    obtain ⟨l₁, s₁, hi, his⟩ := forM_item_cons h
    exact ih (fun j hj => hstep j (List.mem_cons_of_mem _ hj)) his
      (hstep i List.mem_cons_self hi hP)

end Items

end Layouting

end MmixBackend
