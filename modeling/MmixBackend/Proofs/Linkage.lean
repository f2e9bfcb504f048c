import Mathlib.Data.List.Nodup
import Mathlib.Data.List.Perm.Subperm
import MmixBackend.Proofs.Linking

/-!
# Calls by label and by declaration

The machine finds the body of a function under the function's label.  Functions at top level have
the labels of their names, so two of them with one name have one label, and a function called
`new` or `del` has the label that allocation and release go to.

When the functions at top level have different names and none of those with a body is called
`new` or `del`, a call reaches the function that it refers to: under the label of each function
is its own body, and the machine provides allocation and release.
-/

namespace MmixBackend

open Typed Build

/-! ## The functions of a program -/

namespace Typed.Routine

mutual

theorem functions_subperm : ∀ r : Routine, (r.functions.map (·.1)).Subperm r.heads
  | .mk head none inner => List.nil_subperm
  | .mk head (some body) inner => by
    rw [functions, heads, List.map_append]
    have hcomm : ((listFunctions inner).map (·.1) ++ [head]).Perm
        (head :: (listFunctions inner).map (·.1)) := List.perm_append_singleton _ _
    exact hcomm.subperm.trans ((List.subperm_cons head).mpr (listFunctions_subperm inner))

theorem listFunctions_subperm :
    ∀ rs : List Routine, ((listFunctions rs).map (·.1)).Subperm (listHeads rs)
  | [] => List.nil_subperm
  | r :: rs => by
    rw [listFunctions, listHeads, List.map_append]
    exact (functions_subperm r).append (listFunctions_subperm rs)

end

end Typed.Routine

namespace Typed.Decl

variable {ds : List Decl}

theorem head_mem_listHeads {head : Head} (h : head ∈ (Decl.listRoutines ds).map Routine.head) :
    head ∈ Routine.listHeads (Decl.listRoutines ds) := by
  generalize Decl.listRoutines ds = rs at h
  induction rs with
  | nil => cases h
  | cons r rs ih =>
    obtain ⟨head', body, inner⟩ := r
    rw [Routine.listHeads, Routine.heads]
    rcases List.mem_cons.mp h with rfl | h
    · simp
    · exact List.mem_append_right _ (ih h)

theorem mem_listHeads_of_mem {f : Head × Expr}
    (h : f ∈ Routine.listFunctions (Decl.listRoutines ds)) :
    f.1 ∈ Routine.listHeads (Decl.listRoutines ds) :=
  (Routine.listFunctions_subperm _).subset (List.mem_map_of_mem h)

/-- A function with a body and the number of a function at top level is declared there. -/
theorem fn_mem_of_id_eq :
    ((Routine.listHeads (Decl.listRoutines ds)).map (·.id)).Nodup →
    ∀ {f : Head × Expr} {head : Head}, f ∈ Routine.listFunctions (Decl.listRoutines ds) →
      head ∈ (Decl.listRoutines ds).map Routine.head → head.id = f.1.id →
      Decl.fn f.1 f.2 ∈ ds ∧ head = f.1 := by
  induction ds with
  | nil =>
    intro _ f head hf
    cases hf
  | cons d ds ih =>
    intro hnd f head hf hh hid
    cases d with
    | var v =>
      obtain ⟨hmem, rfl⟩ := ih hnd hf hh hid
      exact ⟨List.mem_cons_of_mem _ hmem, rfl⟩
    | foreign g =>
      simp only [listRoutines, routine?, Option.toList_some, List.singleton_append,
        Routine.listHeads, Routine.heads, List.map_cons, List.mem_cons, Routine.head,
        Routine.listFunctions, Routine.functions, List.nil_append] at hnd hf hh
      rcases hh with rfl | hh
      · exact absurd (hid ▸ List.mem_map_of_mem (mem_listHeads_of_mem hf))
          (List.nodup_cons.mp hnd).1
      · obtain ⟨hmem, rfl⟩ := ih (List.nodup_cons.mp hnd).2 hf hh hid
        exact ⟨List.mem_cons_of_mem _ hmem, rfl⟩
    | fn g body =>
      simp only [listRoutines, routine?, Option.toList_some, Routine.listHeads, Routine.heads,
        List.map_cons, List.mem_cons, Routine.head, Routine.listFunctions, Routine.functions,
        List.mem_append, List.cons_append, List.nil_append, List.map_append, List.not_mem_nil,
        or_false] at hnd hf hh
      obtain ⟨hfirst, hrest⟩ := List.nodup_cons.mp hnd
      obtain ⟨-, hds, hdisj⟩ := List.nodup_append.mp hrest
      rw [List.mem_append, not_or] at hfirst
      have hinner : ∀ {f : Head × Expr}, f ∈ Routine.listFunctions body.routines →
          f.1 ∈ Routine.listHeads body.routines := fun hf =>
        (Routine.listFunctions_subperm _).subset (List.mem_map_of_mem hf)
      rcases hh with rfl | hh
      · -- the function itself, and no other has its number
        rcases hf with (hf | rfl) | hf
        · exact absurd (hid ▸ List.mem_map_of_mem (hinner hf)) hfirst.1
        · exact ⟨List.mem_cons_self, rfl⟩
        · exact absurd (hid ▸ List.mem_map_of_mem (mem_listHeads_of_mem hf)) hfirst.2
      · have hhead : head.id ∈ (Routine.listHeads (listRoutines ds)).map (·.id) :=
          List.mem_map_of_mem (head_mem_listHeads hh)
        rcases hf with (hf | rfl) | hf
        · exact absurd hid.symm (hdisj _ (List.mem_map_of_mem (hinner hf)) _ hhead)
        · exact absurd (hid ▸ hhead) hfirst.2
        · obtain ⟨hmem, rfl⟩ := ih hds hf hh hid
          exact ⟨List.mem_cons_of_mem _ hmem, rfl⟩

end Typed.Decl

namespace Typed.Program

def tops (p : Program) : List Head := (Decl.listRoutines p.decls).map Routine.head

/-- The functions of a program have different numbers, those at top level have different names,
and those with a body are not called `new` or `del`. -/
structure WellNamed (p : Program) : Prop where
  ids : (p.heads.map (·.id)).Nodup
  names : (p.tops.map (·.name)).Nodup
  runtime : ∀ head body, Decl.fn head body ∈ p.decls → head.name ≠ "new" ∧ head.name ≠ "del"

/-! ## What is under a label -/

variable {e : Expr} {frame : Frame}

section Bodies

variable {layout : Layout} {table : Table Label (Frame × Expr)} {fs : List (Head × Expr)}

/-- The table of bodies with those of more functions entered. -/
abbrev enter (layout : Layout) (table : Table Label (Frame × Expr)) (fs : List (Head × Expr)) :
    Table Label (Frame × Expr) :=
  fs.foldl
    (fun t f =>
      match layout.frames[f.1.id]? with
      | some frame => t.insert frame.label (frame, f.2)
      | none => t)
    table

/-- Whatever is in the table was there or is the body of a function. -/
theorem mem_enter {l : Label} :
    ∀ {table : Table Label (Frame × Expr)}, (enter layout table fs)[l]? = some (frame, e) →
      table[l]? = some (frame, e) ∨
        ∃ head, (head, e) ∈ fs ∧ layout.frames[head.id]? = some frame ∧ frame.label = l := by
  induction fs with
  | nil => exact fun h => Or.inl h
  | cons f fs ih =>
    intro table h
    rw [enter, List.foldl_cons] at h
    rcases ih h with h | ⟨head, hmem, hf, hl⟩
    · cases hframe : layout.frames[f.1.id]? with
      | none =>
        simp only [hframe] at h
        exact Or.inl h
      | some g =>
        simp only [hframe] at h
        rcases Table.of_getElem?_insert h with ⟨hl, heq⟩ | ⟨-, h⟩
        · cases heq
          exact Or.inr ⟨f.1, List.mem_cons_self, hframe, hl⟩
        · exact Or.inl h
    · exact Or.inr ⟨head, List.mem_cons_of_mem _ hmem, hf, hl⟩

theorem getElem?_enter {tops : List Head} {n : Names} (hd : Layouting.Distinct tops layout n)
    {d : DeclId} (hf : layout.frames[d]? = some frame) :
    ∀ {table : Table Label (Frame × Expr)}, (fs.map (·.1.id)).Nodup →
      (enter layout table fs)[frame.label]? =
        match fs.find? (·.1.id = d) with
        | some f => some (frame, f.2)
        | none => table[frame.label]? := by
  induction fs with
  | nil => exact fun _ => rfl
  | cons f fs ih =>
    intro table hnd
    obtain ⟨hnew, hnd'⟩ := List.nodup_cons.mp hnd
    rw [enter, List.foldl_cons, ih hnd']
    by_cases hfd : f.1.id = d
    · have hnone : fs.find? (·.1.id = d) = none := by
        rw [List.find?_eq_none]
        intro g hg hgd
        refine hnew ?_
        show f.1.id ∈ fs.map (·.1.id)
        rw [hfd, ← of_decide_eq_true hgd]
        exact List.mem_map_of_mem (f := fun f : Head × Expr => f.1.id) hg
      have hframe : layout.frames[f.1.id]? = some frame := hfd ▸ hf
      rw [List.find?_cons_of_pos (by simpa using hfd), hnone]
      simp only [hframe, Std.ExtTreeMap.getElem?_insert_self]
    · rw [List.find?_cons_of_neg (by simpa using hfd)]
      split
      · rfl
      · cases hframe : layout.frames[f.1.id]? with
        | none => rfl
        | some g =>
          exact Table.getElem?_insert_of_ne fun heq => hfd (hd.inj hframe hf heq)

end Bodies

variable {p : Program} {layout : Layout} {names : Names}

theorem functions_nodup (h : (p.heads.map (·.id)).Nodup) : (p.functions.map (·.1.id)).Nodup := by
  obtain ⟨l, hperm, hsub⟩ := Routine.listFunctions_subperm (Decl.listRoutines p.decls)
  have hl : (l.map (·.id)).Nodup := h.sublist (hsub.map _)
  have hp := (hperm.map (·.id)).nodup_iff.mp hl
  rwa [List.map_map] at hp

/-- A label with a text that is the label of a function's frame is that of a declaration at top
level. -/
theorem fn_mem_of_text (h : p.WellNamed) (hd : Layouting.Distinct p.tops layout names) {l : Label}
    {name : String} (hl : names.lookup ("_" ++ name) = some l)
    (hb : (p.bodies layout)[l]? = some (frame, e)) :
    ∃ head, Decl.fn head e ∈ p.decls ∧ head.name = name ∧
      layout.frames[head.id]? = some frame := by
  rcases mem_enter hb with hnone | ⟨head, hmem, hf, rfl⟩
  · simp at hnone
  · obtain ⟨top, htop, hid, htext⟩ := hd.named hf (Names.getElem?_labels_of_lookup hl)
    obtain ⟨hfn, rfl⟩ := Decl.fn_mem_of_id_eq h.ids hmem htop hid
    exact ⟨top, hfn, (String.append_right_inj "_" |>.mp htext).symm, hf⟩

/-- Allocation and release are provided by the machine. -/
theorem bodies_runtime (h : p.WellNamed) (hd : Layouting.Distinct p.tops layout names)
    {op : PrefixOp} (hop : op = .new ∨ op = .del) {l : Label}
    (hl : names.lookup (Lowering.runtimeName op) = some l) : (p.bodies layout)[l]? = none := by
  cases hb : (p.bodies layout)[l]? with
  | none => rfl
  | some b =>
    obtain ⟨frame, e⟩ := b
    rcases hop with rfl | rfl
    · have hl' : names.lookup ("_" ++ "new") = some l := hl
      obtain ⟨head, hfn, hname, -⟩ := fn_mem_of_text h hd hl' hb
      exact absurd hname (h.runtime head e hfn).1
    · have hl' : names.lookup ("_" ++ "del") = some l := hl
      obtain ⟨head, hfn, hname, -⟩ := fn_mem_of_text h hd hl' hb
      exact absurd hname (h.runtime head e hfn).2

/-! ## The two linkages -/

theorem byLabel_resolves (p : Program) (names : Names) (layout : Layout) :
    (p.byLabel names layout).Resolves names layout (p.bodies layout) where
  function d frame hf := by simp only [byLabel, hf, Option.map_some]
  runtime op l _ hl := by simp only [byLabel, hl]

theorem byDeclaration_resolves (h : p.WellNamed) (hd : Layouting.Distinct p.tops layout names) :
    (p.byDeclaration names layout).Resolves names layout (p.bodies layout) where
  function d frame hf := by
    have hb : (p.bodies layout)[frame.label]? = _ := getElem?_enter hd hf (functions_nodup h.ids)
    simp only [byDeclaration, hf, Option.map_some, Callee.under, hb]
    cases p.functions.find? (·.1.id = d) with
    | some f => rfl
    | none => simp
  runtime op l hop hl := by
    simp only [byDeclaration, Callee.under, bodies_runtime h hd hop hl, Names.textOf_of_lookup hl]

/-- The function that a declaration of `main` declares, with its frame. -/
def main? (layout : Layout) : Decl → Option (Frame × Expr)
  | .fn head e =>
    if head.name = "main" then layout.frames[head.id]?.map fun frame => (frame, e) else none
  | _ => none

theorem main?_eq_some {d : Decl} :
    main? layout d = some (frame, e) ↔
      ∃ head, d = .fn head e ∧ head.name = "main" ∧ layout.frames[head.id]? = some frame := by
  cases d with
  | var | foreign => simp [main?]
  | fn head body =>
    simp only [main?]
    split
    · next hn => simp [hn, and_comm]
    · next hn => simp [hn]

theorem tops_of_fn {head : Head} (h : Decl.fn head e ∈ p.decls) :
    Routine.mk head (some e) e.routines ∈ Decl.listRoutines p.decls := by
  generalize p.decls = ds at h
  induction ds with
  | nil => cases h
  | cons d ds ih =>
    rw [Decl.listRoutines, List.mem_append]
    rcases List.mem_cons.mp h with rfl | h
    · exact Or.inl (by simp [Decl.routine?])
    · exact Or.inr (ih h)

theorem bodies_of_fn (h : p.WellNamed) (hd : Layouting.Distinct p.tops layout names) {head : Head}
    (hfn : Decl.fn head e ∈ p.decls) (hf : layout.frames[head.id]? = some frame) :
    (p.bodies layout)[frame.label]? = some (frame, e) := by
  have hmem := mem_functions hfn
  have hfind : p.functions.find? (·.1.id = head.id) = some (head, e) := by
    cases hg : p.functions.find? (·.1.id = head.id) with
    | none =>
      have hne := List.find?_eq_none.mp hg _ hmem
      simp at hne
    | some g =>
      have hid : g.1.id = head.id := by simpa using List.find?_some hg
      exact congrArg some
        (List.inj_on_of_nodup_map (functions_nodup h.ids) (List.mem_of_find?_eq_some hg) hmem hid)
  have hb : (p.bodies layout)[frame.label]? = _ := getElem?_enter hd hf (functions_nodup h.ids)
  rw [hb, hfind]

theorem byDeclaration_entry (h : p.WellNamed) (hd : Layouting.Distinct p.tops layout names) :
    (p.byDeclaration names layout).entry = (p.byLabel names layout).entry := by
  have hdecl : (p.byDeclaration names layout).entry = p.decls.findSome? (main? layout) := rfl
  have hlabel : (p.byLabel names layout).entry =
      names.lookup ("_" ++ "main") >>= ((p.bodies layout)[·]?) := rfl
  rw [hdecl, hlabel]
  -- a declaration of `main` is found under its label
  have hfound : ∀ {head e frame}, Decl.fn head e ∈ p.decls → head.name = "main" →
      layout.frames[head.id]? = some frame →
      (names.lookup ("_" ++ "main") >>= ((p.bodies layout)[·]?)) = some (frame, e) := by
    intro head e frame hfn hname hf
    obtain ⟨f, hf', hlook⟩ := hd.top head (List.mem_map_of_mem (tops_of_fn hfn))
    obtain rfl : f = frame := Option.some.inj (hf'.symm.trans hf)
    rw [← hname, hlook]
    exact bodies_of_fn h hd hfn hf
  cases hs : p.decls.findSome? (main? layout) with
  | some b =>
    obtain ⟨frame, e⟩ := b
    obtain ⟨d, hmem, hd'⟩ := List.exists_of_findSome?_eq_some hs
    obtain ⟨head, rfl, hname, hf⟩ := main?_eq_some.mp hd'
    exact (hfound hmem hname hf).symm
  | none =>
    cases hl : names.lookup ("_" ++ "main") >>= ((p.bodies layout)[·]?) with
    | none => rfl
    | some b =>
      obtain ⟨frame, e⟩ := b
      obtain ⟨l, hlook, hb⟩ := Option.bind_eq_some_iff.mp hl
      obtain ⟨head, hfn, hname, hf⟩ := fn_mem_of_text h hd hlook hb
      have hnone := List.findSome?_eq_none_iff.mp hs _ hfn
      rw [main?_eq_some.mpr ⟨head, rfl, hname, hf⟩] at hnone
      cases hnone

end Typed.Program

end MmixBackend
