import Mathlib.Data.List.Pairwise
import MmixBackend.Proofs.Compilation
import MmixBackend.Proofs.Data
import MmixBackend.Proofs.Linking
import MmixBackend.Proofs.Registry

/-!
# Labels of data and of functions

Laying out gives every literal a label of its own without a text, and every variable at top level
the label of its name.  Together with the labels of functions, no label is given twice when the
nodes, the declarations and the names at top level of a program are different.

A literal is listed with the function in whose body it stands.  The bodies of all functions together
have every node of a program once.
-/

namespace MmixBackend

open Typed Build

namespace Typed

/-- The expressions in the bodies of functions, each with the function in whose body it stands. -/
def bodyParts (fs : List (Head × Expr)) : List Expr := fs.flatMap (·.2.within)

theorem Expr.literal_mem_entries {e : Expr} {depth : Nat} {node : Node} {text : String}
    (h : .literal node text ∈ e.entries depth) : e = .atom node (.str text) := by
  unfold Expr.entries at h
  split at h
  · simp at h
  · obtain ⟨rfl, rfl⟩ : node = _ ∧ text = _ := by simpa using h
    rfl
  · simp [Entry.ofVar] at h

theorem Program.mem_bodyParts {p : Program} {i : Item} (hi : i ∈ p.items) {node : Node}
    {text : String} (h : .literal node text ∈ i.entries) :
    Expr.atom node (.str text) ∈ bodyParts p.functions := by
  cases i with
  | var v => simp [Item.entries, Entry.ofVar] at h
  | function around head body =>
    simp only [Item.entries, List.mem_append, List.mem_cons, List.mem_flatMap] at h
    obtain ⟨_, -, h⟩ | h | ⟨e, he, h⟩ := h
    · simp [Entry.ofVar] at h
    · cases h
    · obtain rfl := Expr.literal_mem_entries h
      cases body with
      | none => cases he
      | some body =>
        refine List.mem_flatMap.mpr ⟨_, (Program.items_closed hi).2, ?_⟩
        simpa [Item.exprs] using he

end Typed

namespace Layouting

/-! ## What laying out keeps -/

/-- Literals have labels without a text, each one of its own. -/
structure Lettered (l : Layout) (n : Names) : Prop where
  blank : ∀ ⦃id : NodeId⦄ ⦃label : Label⦄ ⦃size : Word⦄ ⦃init : Option String⦄,
    l.literals[id]? = some (.absolute label size init) → n.labels[label.index]? = some none
  inj : ∀ ⦃id id' : NodeId⦄ ⦃label : Label⦄ ⦃size size' : Word⦄ ⦃init init' : Option String⦄,
    l.literals[id]? = some (.absolute label size init) →
    l.literals[id']? = some (.absolute label size' init') → id = id'

section Lettered

variable {es : List Entry} {p : Program} {l l' : Layout} {n n' : Names} {id : NodeId}
  {label : Label} {size : Word} {init : Option String} {s s' : Session}

theorem Lettered.hasLabel (h : Lettered l n)
    (hid : l.literals[id]? = some (.absolute label size init)) : n.HasLabel label :=
  (Array.getElem?_eq_some_iff.mp (h.blank hid)).1

theorem Lettered.mono (h : Lettered l n) (hle : n ≤ n') : Lettered l n' where
  blank _ _ _ _ hid := by
    rw [Names.getElem?_labels_of_le hle (h.hasLabel hid)]
    exact h.blank hid
  inj := h.inj

/-- A literal that entries bring in has the text of one of them and a label drawn anew. -/
theorem Fills.literal_cases (h : Fills es l n l' n')
    (hid : l'.literals[id]? = some (.absolute label size init)) :
    l.literals[id]? = some (.absolute label size init) ∨
      ¬ n.HasLabel label ∧ ∃ node text, .literal node text ∈ es ∧ node.id = id ∧
        size = literalSize text ∧ init = some text := by
  induction h with
  | nil => exact Or.inl hid
  | type _ _ ih | var _ ih =>
    refine (ih hid).imp_right (And.imp_right ?_)
    exact fun ⟨node, text, hmem, h⟩ => ⟨node, text, List.mem_cons_of_mem _ hmem, h⟩
  | @literal node text _ _ _ _ _ _ ih =>
    obtain hold | ⟨hnew, node', text', hmem, h⟩ := ih hid
    · obtain ⟨hn, heq⟩ | ⟨-, hold⟩ := Table.of_getElem?_insert hold
      · cases heq
        exact Or.inr ⟨Nat.lt_irrefl _, node, text, List.mem_cons_self, hn, rfl, rfl⟩
      · exact Or.inl hold
    · exact Or.inr ⟨fun hlt => hnew (Nat.lt_of_lt_of_le hlt
        (Names.labels_le (Names.le_newLabel _))), node', text', List.mem_cons_of_mem _ hmem, h⟩

theorem Fills.lettered (h : Fills es l n l' n') (hl : Lettered l n) : Lettered l' n' := by
  induction h with
  | nil => exact hl
  | type _ _ ih | var _ ih => exact ih ⟨hl.blank, hl.inj⟩
  | @literal node text _ l n _ _ _ ih =>
    have hgrown := hl.mono (Names.le_newLabel n)
    refine ih ⟨fun id label size init hid => ?_, fun id₁ id₂ label _ _ _ _ h₁ h₂ => ?_⟩
    · obtain ⟨-, heq⟩ | ⟨-, hid⟩ := Table.of_getElem?_insert hid
      · cases heq
        simp
      · exact hgrown.blank hid
    · -- the new label is that of no old literal
      obtain ⟨rfl, heq₁⟩ | ⟨-, hold₁⟩ := Table.of_getElem?_insert h₁ <;>
        obtain ⟨rfl, heq₂⟩ | ⟨-, hold₂⟩ := Table.of_getElem?_insert h₂
      · rfl
      · cases heq₁
        exact absurd (hl.hasLabel hold₂) (Nat.lt_irrefl _)
      · cases heq₂
        exact absurd (hl.hasLabel hold₁) (Nat.lt_irrefl _)
      · exact hl.inj hold₁ hold₂

/-- No literal has the label of a function. -/
def Aside (l : Layout) : Prop :=
  ∀ ⦃id : NodeId⦄ ⦃label : Label⦄ ⦃size : Word⦄ ⦃init : Option String⦄ ⦃d : DeclId⦄ ⦃f : Frame⦄,
    l.literals[id]? = some (.absolute label size init) → l.frames[d]? = some f → f.label ≠ label

theorem item_lettered {i : Item} (h : item i l s = .ok ((), l') s') (hl : Lettered l s.names) :
    Lettered l' s'.names := by
  cases i with
  | var v =>
    obtain ⟨_, _, -, -, hs, rfl⟩ := decl_var_ok h
    exact ⟨(hl.mono (hs ▸ Names.le_named _ _)).blank, hl.inj⟩
  | function around head body =>
    obtain ⟨n₁, l₁, n₂, frame, hlab, hfills, rfl, hs, -⟩ := function_fills h
    have hle : n₂ ≤ s'.names := hs ▸ Names.le_trans (Names.le_newTemp _) (Names.le_newTemp _)
    have hkept := (hfills.lettered (hl.mono hlab.le)).mono hle
    exact ⟨hkept.blank, hkept.inj⟩

theorem item_aside {i : Item} (h : item i l s = .ok ((), l') s') (hl : Aside l)
    (hlet : Lettered l s.names) (hframes : Unshared l s.names) : Aside l' := by
  cases i with
  | var v =>
    obtain ⟨_, _, -, -, -, rfl⟩ := decl_var_ok h
    exact hl
  | function around head body =>
    obtain ⟨n₁, l₁, n₂, frame, hlab, hfills, rfl, -⟩ := function_fills h
    intro id label size init d f hid hf heq
    -- the label of the function was drawn after the old ones and before the new ones
    obtain ⟨-, rfl⟩ | ⟨-, hf⟩ := Table.of_getElem?_insert hf <;>
      obtain hold | ⟨hnew, -⟩ := hfills.literal_cases hid
    · refine hlab.fresh (Names.le_refl _) ?_ (heq ▸ hlet.hasLabel hold)
      exact heq ▸ (hlet.mono hlab.le).blank hold
    · exact hnew (heq ▸ (Array.getElem?_eq_some_iff.mp (hlab.text (Names.le_refl _)).1).1)
    · exact hl hold (hfills.frames ▸ hf) heq
    · exact hnew (heq ▸ Nat.lt_of_lt_of_le (hframes.old (hfills.frames ▸ hf))
        (Names.labels_le hlab.le))

/-- Laying out a program gives every literal a label of its own. -/
theorem layout_lettered (h : p.layout s = .ok l s') : Lettered l s'.names ∧ Aside l := by
  obtain ⟨hlet, -, haside⟩ := forM_item_induction
    (P := fun l t => Lettered l t.names ∧ Unshared l t.names ∧ Aside l)
    (fun _ _ {_ _ _ _} hok hl =>
      ⟨item_lettered hok hl.1, item_unshared hok hl.2.1, item_aside hok hl.2.2 hl.1 hl.2.1⟩)
    (layout_items h) ⟨⟨by simp, by simp⟩, ⟨by simp, by simp⟩, by simp [Aside]⟩
  exact ⟨hlet, haside⟩

/-- Literals have the texts of the program's nodes. -/
theorem layout_text (h : p.layout s = .ok l s')
    (hid : l.literals[id]? = some (.absolute label size init)) :
    ∃ node text, Expr.atom node (.str text) ∈ bodyParts p.functions ∧ node.id = id ∧
      size = literalSize text ∧ init = some text := by
  refine forM_item_fills (P := fun l => l.literals[id]? = some (.absolute label size init) →
    ∃ node text, Expr.atom node (.str text) ∈ bodyParts p.functions ∧ node.id = id ∧
      size = literalSize text ∧ init = some text) (fun _ _ h => h) ?_ (layout_items h) (by simp) hid
  intro i hi l₁ _ l₂ _ hfills hl hid
  obtain hold | ⟨-, node, text, hmem, hrest⟩ := hfills.literal_cases hid
  · exact hl hold
  · exact ⟨node, text, Program.mem_bodyParts hi hmem, hrest⟩

/-- What has an address of its own is a variable at top level, under the label of its name. -/
theorem layout_data (h : p.layout s = .ok l s') {d : DeclId}
    (hd : l.accesses[d]? = some (.absolute label size init)) :
    ∃ v, Decl.var v ∈ p.decls ∧ v.id = d ∧ s'.names.lookup ("_" ++ v.name) = some label ∧
      v.ty.size = .ok size ∧ init = none := by
  refine forM_item_induction (P := fun l t => l.accesses[d]? = some (.absolute label size init) →
    ∃ v, Decl.var v ∈ p.decls ∧ v.id = d ∧ t.names.lookup ("_" ++ v.name) = some label ∧
      v.ty.size = .ok size ∧ init = none) ?_ (layout_items h) (by simp) hd
  intro i hi l₁ l₂ s₁ s₂ hok hl hd
  have hold : l₁.accesses[d]? = some (.absolute label size init) →
      ∃ v, Decl.var v ∈ p.decls ∧ v.id = d ∧ s₂.names.lookup ("_" ++ v.name) = some label ∧
        v.ty.size = .ok size ∧ init = none := by
    intro hd
    obtain ⟨v, hv, hid, hlook, hrest⟩ := hl hd
    exact ⟨v, hv, hid, Names.lookup_of_le (item_frames hok).1 hlook, hrest⟩
  cases i with
  | function around head body =>
    obtain ⟨_, _, _, _, -, hfills, rfl, -⟩ := function_fills hok
    obtain hsame | ⟨a, ha, hgives⟩ := hfills.access d
    · exact hold (hsame ▸ hd)
    · obtain rfl := Option.some.inj (ha.symm.trans hd)
      obtain hvar | ⟨hdepth, -⟩ := hgives
      · cases (Item.var_mem_entries.mp hvar).2
      · cases hdepth
  | var v =>
    obtain ⟨places, n, hty, hn, hs, rfl⟩ := decl_var_ok hok
    obtain ⟨hid, heq⟩ | ⟨-, hd⟩ := Table.of_getElem?_insert hd
    · cases heq
      obtain ⟨w, hw, hv⟩ := (Program.mem_items_iff.mp hi).resolve_left fun hfun => by
        obtain ⟨_, _, _, hfun, -⟩ := Routine.function_of_mem_listItems hfun
        cases hfun
      cases hw
      exact ⟨v, hv, hid, hs ▸ Names.named_lookup _ _, hn, rfl⟩
    · obtain hsame | ⟨-, _, hrel⟩ := place_cases (d := d) hty
      · exact hold (hsame ▸ hd)
      · cases hrel.symm.trans hd

end Lettered

end Layouting

namespace Typed

open Lowering

/-! ## What a program declares at top level -/

def Decl.name : Decl → String
  | .var v => v.name
  | .foreign head | .fn head _ => head.name

/-- The name of what a declaration defines; a function without a body is defined elsewhere. -/
def Decl.defines? : Decl → Option String
  | .var v => some v.name
  | .foreign _ => none
  | .fn head _ => some head.name

/-- The names that a program defines at top level. -/
def Program.defined (p : Program) : List String := p.decls.filterMap Decl.defines?

theorem Decl.listRoutines_names :
    ∀ ds : List Decl, ((Decl.listRoutines ds).map (·.head.name)).Sublist (ds.map Decl.name)
  | [] => .slnil
  | .var _ :: ds => (Decl.listRoutines_names ds).cons _
  | .foreign _ :: ds | .fn _ _ :: ds => (Decl.listRoutines_names ds).cons_cons _

theorem Decl.mem_listRoutines {r : Routine} {ds : List Decl} :
    r ∈ Decl.listRoutines ds ↔ ∃ d ∈ ds, d.routine? = some r := by
  induction ds with
  | nil => simp [Decl.listRoutines]
  | cons d ds ih => simp [Decl.listRoutines, ih]

theorem Program.name_ne_of_top {p : Program} (hnames : (p.decls.map Decl.name).Nodup) {v : Var}
    (hv : Decl.var v ∈ p.decls) {head : Head} (hh : head ∈ p.tops) : v.name ≠ head.name := by
  intro heq
  obtain ⟨r, hr, rfl⟩ := List.mem_map.mp hh
  obtain ⟨d, hd, hdr⟩ := Decl.mem_listRoutines.mp hr
  have hname : d.name = r.head.name := by
    cases d <;> cases hdr <;> rfl
  obtain rfl := List.inj_on_of_nodup_map hnames hv hd (heq.trans hname.symm)
  cases hdr

/-! ## Nodes of bodies -/

theorem bodyParts_append (fs fs' : List (Head × Expr)) :
    bodyParts (fs ++ fs') = bodyParts fs ++ bodyParts fs' := List.flatMap_append

/-- All of these expressions are outside functions, or in the body of one. -/
def Splits (all outside : List Expr) (rs : List Routine) : Prop :=
  all.Perm (outside ++ bodyParts (Routine.listFunctions rs))

theorem Splits.append {all all' outside outside' : List Expr} {rs rs' : List Routine}
    (h : Splits all outside rs) (h' : Splits all' outside' rs') :
    Splits (all ++ all') (outside ++ outside') (rs ++ rs') := by
  refine (List.Perm.append h h').trans ?_
  rw [Routine.listFunctions_append, bodyParts_append, List.append_assoc, List.append_assoc]
  exact (List.perm_append_comm_assoc _ _ _).append_left _

mutual

/-- A node is in an expression itself or in the body of a function declared in it. -/
theorem Expr.splits : ∀ e : Expr, Splits e.throughout e.within e.routines
  | .atom .. | .name .. => .refl _
  | .index _ a b | .binary _ _ a b => .cons _ (a.splits.append b.splits)
  | .field _ a _ | .unary _ _ a | .deref _ a | .cast _ _ a => .cons _ a.splits
  | .call _ _ args => .cons _ (Expr.listSplits args)
  | .block _ body => .cons _ (Stmt.listSplits body)
  | .scope _ a decls => by
    refine .cons _ ((a.splits.append (Decl.listSplits decls)).trans ?_)
    rw [List.append_nil, Expr.routines, Routine.listFunctions_append,
      Routine.listFunctions_append, bodyParts_append, bodyParts_append]
    exact List.perm_append_comm.append_left _

theorem Expr.listSplits :
    ∀ es : List Expr, Splits (Expr.listThroughout es) (Expr.listWithin es) (Expr.listRoutines es)
  | [] => .nil
  | e :: es => e.splits.append (Expr.listSplits es)

theorem Stmt.splits : ∀ s : Stmt, Splits s.throughout s.within s.routines
  | .assign _ dst src => dst.splits.append src.splits
  | .eval _ e => e.splits
  | .cond _ test yes no => (test.splits.append (Stmt.listSplits yes)).append (Stmt.listSplits no)
  | .loop _ test body => test.splits.append (Stmt.listSplits body)

theorem Stmt.listSplits :
    ∀ ss : List Stmt, Splits (Stmt.listThroughout ss) (Stmt.listWithin ss) (Stmt.listRoutines ss)
  | [] => .nil
  | s :: ss => s.splits.append (Stmt.listSplits ss)

theorem Decl.splits : ∀ d : Decl, Splits d.throughout [] d.routine?.toList
  | .var _ | .foreign _ => .nil
  | .fn head body => by
    have hown : bodyParts [(head, body)] = body.within := List.append_nil _
    refine body.splits.trans ?_
    rw [Decl.routine?, Option.toList_some, Routine.listFunctions, Routine.functions,
      Routine.listFunctions, List.append_nil, bodyParts_append, hown]
    exact List.perm_append_comm

theorem Decl.listSplits :
    ∀ ds : List Decl, Splits (Decl.listThroughout ds) [] (Decl.listRoutines ds)
  | [] => .nil
  | d :: ds => d.splits.append (Decl.listSplits ds)

end

/-- The bodies of all functions have every node of a program once. -/
theorem Program.nodes_perm (p : Program) :
    (Decl.listThroughout p.decls).Perm (bodyParts p.functions) :=
  Decl.listSplits p.decls

/-! ## Data -/

section Data

variable (l : Layout)

/-- The data of a variable at top level. -/
def Decl.cell (l : Layout) : Decl → Option DataChunk
  | .var v => l.accesses[v.id]? >>= DataChunk.ofAccess?
  | .foreign _ | .fn .. => none

mutual

theorem Routine.data_perm :
    ∀ r : Routine, (r.data l).Perm ((bodyParts r.functions).filterMap (·.literalChunk? l))
  | .mk head none inner => .nil
  | .mk head (some body) inner => by
    have hown : bodyParts [(head, body)] = body.within := List.append_nil _
    rw [Routine.data, Routine.functions, bodyParts_append, hown, List.filterMap_append]
    exact ((Routine.listData_perm inner).append_left _).trans List.perm_append_comm

theorem Routine.listData_perm :
    ∀ rs : List Routine, (Routine.listData l rs).Perm
      ((bodyParts (Routine.listFunctions rs)).filterMap (·.literalChunk? l))
  | [] => .nil
  | r :: rs => by
    rw [Routine.listData, Routine.listFunctions, bodyParts_append, List.filterMap_append]
    exact (Routine.data_perm r).append (Routine.listData_perm rs)

end

/-- The data of a program are its variables at top level and the literals in its functions. -/
theorem Program.data_perm (p : Program) :
    (p.data l).Perm (p.decls.filterMap (Decl.cell l) ++
      (bodyParts p.functions).filterMap (·.literalChunk? l)) := by
  unfold Program.data Program.functions
  induction p.decls with
  | nil => exact .nil
  | cons d ds ih =>
    rw [List.flatMap_cons, Decl.listRoutines, Routine.listFunctions_append, bodyParts_append,
      List.filterMap_append]
    cases d with
    | var v =>
      show (((Decl.cell l (.var v)).toList ++ ds.flatMap (Decl.data l)).Perm _)
      rw [List.filterMap_cons]
      cases Decl.cell l (.var v) with
      | none => exact ih
      | some chunk => exact ih.cons chunk
    | foreign head =>
      rw [List.filterMap_cons_none rfl]
      exact ih
    | fn head body =>
      rw [List.filterMap_cons_none rfl]
      -- the literals of the function go behind the variables after it
      have hown := (Routine.data_perm l (.mk head (some body) body.routines)).append ih
      refine hown.trans ?_
      simp only [Decl.routine?, Option.toList_some, Routine.listFunctions, List.append_nil]
      rw [← List.append_assoc, ← List.append_assoc]
      exact List.Perm.append_right _ List.perm_append_comm

end Data

end Typed

/-! ## Labels of a program -/

/-- Each of these labels has no text, or is that of one of these names at top level. -/
def Names.Spells (n : Names) (names : List String) (l : Label) : Prop :=
  n.labels[l.index]? = some none ∨ ∃ name ∈ names, n.lookup ("_" ++ name) = some l

namespace Names

variable {n : Names} {names : List String} {l l' : Label}

theorem textOf_blank (h : n.labels[l.index]? = some none) :
    n.textOf l = "L" ++ toString l.index := by
  simp only [textOf, h]

theorem toString_injective {i j : Nat} (h : toString i = toString j) : i = j := by
  change i.repr = j.repr at h
  rw [Nat.repr_eq_ofList_toDigits, Nat.repr_eq_ofList_toDigits] at h
  have hdigits := congrArg (fun s : String => Nat.ofDigitChars 10 s.toList 0) h
  simpa [Nat.ofDigitChars_toDigits] using hdigits

theorem blank_ne_named (i : Nat) (name : String) : "L" ++ toString i ≠ "_" ++ name := by
  intro heq
  have hchars := congrArg String.toList heq
  rw [String.toList_append, String.toList_append] at hchars
  cases hchars

theorem Spells.inj (h : n.Spells names l) (h' : n.Spells names l')
    (heq : n.textOf l = n.textOf l') : l = l' := by
  obtain hblank | ⟨name, -, hname⟩ := h <;> obtain hblank' | ⟨name', -, hname'⟩ := h'
  · rw [textOf_blank hblank, textOf_blank hblank', String.append_right_inj] at heq
    have hindex : l.index = l'.index := toString_injective heq
    cases l
    cases l'
    exact congrArg Label.mk hindex
  · rw [textOf_blank hblank, textOf_of_lookup hname'] at heq
    exact absurd heq (blank_ne_named _ _)
  · rw [textOf_blank hblank', textOf_of_lookup hname] at heq
    exact absurd heq.symm (blank_ne_named _ _)
  · rw [textOf_of_lookup hname, textOf_of_lookup hname'] at heq
    rw [heq, hname'] at hname
    exact (Option.some.inj hname).symm

end Names

def Chunks.labels (c : Chunks) : List Label :=
  c.data.map (·.label) ++ c.code.map (·.frame.label) ++ c.code.flatMap (·.labels)

namespace Layouting

variable {p : Program} {l : Layout} {n : Names} {s s' : Session}

theorem literal_of_chunk {e : Expr} {d : DataChunk} (h : e.literalChunk? l = some d) :
    ∃ size init, l.literals[e.id]? = some (.absolute d.label size init) := by
  unfold Expr.literalChunk? at h
  split at h
  · next node text =>
    obtain ⟨a, ha, hd⟩ := Option.bind_eq_some_iff.mp h
    cases a with
    | absolute label size init =>
      obtain rfl := Option.some.inj hd
      exact ⟨size, init, ha⟩
    | relative offset depth => cases hd
  · cases h

theorem Lettered.literals_nodup (h : Lettered l n)
    {es : List Expr} (hids : (Lowering.ids es).Nodup) :
    ((es.filterMap (·.literalChunk? l)).map (·.label)).Nodup := by
  refine List.pairwise_map.mpr (List.pairwise_filterMap.mpr ?_)
  refine (List.pairwise_map.mp hids).imp fun {e e'} hne d hd d' hd' heq => ?_
  obtain ⟨size, init, hlit⟩ := literal_of_chunk hd
  obtain ⟨size', init', hlit'⟩ := literal_of_chunk hd'
  rw [← heq] at hlit'
  exact hne (h.inj hlit hlit')

theorem var_unique (hp : p.Distinct) {v w : Var} (hv : Decl.var v ∈ p.decls)
    (hw : Decl.var w ∈ p.decls) (hid : w.id = v.id) : w = v := by
  have hnd := hp.vars
  rw [Program.vars, List.map_flatMap, List.nodup_flatMap] at hnd
  by_contra hne
  have hvi : Item.var v ∈ p.items := Program.mem_items_iff.mpr (Or.inr ⟨v, rfl, hv⟩)
  have hwi : Item.var w ∈ p.items := Program.mem_items_iff.mpr (Or.inr ⟨w, rfl, hw⟩)
  have hsymm : Std.Symm (Function.onFun List.Disjoint fun i : Item => i.vars.map (·.1)) :=
    ⟨fun _ _ h _ hi hj => h hj hi⟩
  have hdisj := hnd.2.forall hwi hvi fun heq => hne (Item.var.inj heq)
  exact hdisj (a := v.id) (by simp [Item.vars, hid]) (by simp [Item.vars])

/-- The labels of functions in a layout have no text, or are those of functions that are defined at
top level. -/
theorem frame_spells (hd : Distinct p.tops l n) (hids : (p.heads.map (·.id)).Nodup)
    {f : Head × Expr} (hf : f ∈ p.functions) {frame : Frame}
    (hframe : l.frames[f.1.id]? = some frame) : n.Spells p.defined frame.label := by
  obtain ⟨text?, hget⟩ : ∃ text?, n.labels[frame.label.index]? = some text? :=
    ⟨_, Array.getElem?_eq_getElem (hd.old hframe)⟩
  cases text? with
  | none => exact Or.inl hget
  | some text =>
    obtain ⟨head, hhead, hid, -⟩ := hd.named hframe hget
    obtain ⟨hfn, rfl⟩ := Decl.fn_mem_of_id_eq hids hf hhead hid
    obtain ⟨g, hg, hlook⟩ := hd.top f.1 hhead
    obtain rfl := Option.some.inj (hframe.symm.trans hg)
    exact Or.inr ⟨f.1.name, List.mem_filterMap.mpr ⟨_, hfn, rfl⟩, hlook⟩

variable (h : p.layout s = .ok l s') (hp : p.Distinct)

include h hp

/-- A variable at top level is under the label of its name. -/
theorem layout_var {v : Var} (hv : Decl.var v ∈ p.decls) :
    ∃ label size, l.accesses[v.id]? = some (.absolute label size none) ∧
      s'.names.lookup ("_" ++ v.name) = some label ∧ v.ty.size = .ok size := by
  have hi : Item.var v ∈ p.items := Program.mem_items_iff.mpr (Or.inr ⟨v, rfl, hv⟩)
  have hplace : (v.id, none) ∈ p.places :=
    List.mem_append_left _ (var_mem_places hi (v := (v.id, v.ty)) List.mem_cons_self)
  obtain ⟨a, ha, hdepth⟩ := ((layout_recorded hp).ok h).2.access hplace
  cases a with
  | relative offset depth => cases hdepth
  | absolute label size init =>
    obtain ⟨w, hw, hid, hlook, hsize, rfl⟩ := layout_data h ha
    rw [var_unique hp hv hw hid] at hlook hsize
    exact ⟨label, size, ha, hlook, hsize⟩

/-- The data of a variable at top level are under the label of its name. -/
theorem label_of_cell {d : Decl} (hd : d ∈ p.decls) {chunk : DataChunk}
    (hc : d.cell l = some chunk) :
    ∃ v, d = .var v ∧ s'.names.lookup ("_" ++ v.name) = some chunk.label := by
  cases d with
  | foreign head => cases hc
  | fn head body => cases hc
  | var v =>
    obtain ⟨label, size, ha, hlook, -⟩ := layout_var h hp hd
    rw [Decl.cell, ha] at hc
    cases hc
    exact ⟨v, rfl, hlook⟩

/-- Different names at top level give variables different labels. -/
theorem cells_nodup (hnames : (p.decls.map Decl.name).Nodup) :
    ((p.decls.filterMap (Decl.cell l)).map (·.label)).Nodup := by
  refine List.pairwise_map.mpr (List.pairwise_filterMap.mpr ?_)
  refine List.Pairwise.imp_of_mem ?_ (List.pairwise_map.mp hnames)
  intro d d' hd hd' hne chunk hc chunk' hc' heq
  obtain ⟨v, rfl, hv⟩ := label_of_cell h hp hd hc
  obtain ⟨w, rfl, hw⟩ := label_of_cell h hp hd' hc'
  rw [heq] at hv
  have htext := (Names.textOf_of_lookup hv).symm.trans (Names.textOf_of_lookup hw)
  exact hne ((String.append_right_inj "_").mp htext)

/-- The label of a variable has a text and that of a literal has none. -/
theorem cell_ne_literal {es : List Expr} {k k' : DataChunk}
    (hk : k ∈ p.decls.filterMap (Decl.cell l)) (hk' : k' ∈ es.filterMap (·.literalChunk? l)) :
    k.label ≠ k'.label := by
  obtain ⟨d, hd, hcell⟩ := List.mem_filterMap.mp hk
  obtain ⟨e, -, hlit⟩ := List.mem_filterMap.mp hk'
  obtain ⟨v, rfl, hlook⟩ := label_of_cell h hp hd hcell
  obtain ⟨size, init, hl⟩ := literal_of_chunk hlit
  intro heq
  have htext := Names.getElem?_labels_of_lookup hlook
  rw [heq, (layout_lettered h).1.blank hl] at htext
  cases htext

theorem data_nodup (hids : (Lowering.ids (Decl.listThroughout p.decls)).Nodup)
    (hnames : (p.decls.map Decl.name).Nodup) : ((p.data l).map (·.label)).Nodup := by
  refine ((Program.data_perm l p).map _).nodup_iff.mpr ?_
  rw [List.map_append, List.nodup_append]
  refine ⟨cells_nodup h hp hnames, (layout_lettered h).1.literals_nodup
    (((Program.nodes_perm p).map _).nodup_iff.mp hids), fun a ha b hb => ?_⟩
  obtain ⟨k, hk, rfl⟩ := List.mem_map.mp ha
  obtain ⟨k', hk', rfl⟩ := List.mem_map.mp hb
  exact cell_ne_literal h hp hk hk'

end Layouting

theorem frames_of_builtFor {layout : Layout} {code : Lowered} {n n' : Names} {cs : List CodeChunk}
    {fs : List (Head × Expr)} (h : List.Forall₂ (BuiltFor layout code n n') cs fs) :
    fs.map (fun f => layout.frames[f.1.id]?) = cs.map fun c => some c.frame := by
  induction h with
  | nil => rfl
  | cons hc _ ih =>
    obtain ⟨_, _, hbuild, -⟩ := hc
    obtain ⟨_, _, _, hframe, -⟩ := CodeChunk.build_ok hbuild
    rw [List.map_cons, List.map_cons, hframe, ih]

namespace Typed.Program

variable {p : Program} {s₀ s : Session} {c : Compiled} {l : Layout} {n n' : Names}
  {labels drawn : List Label} {cs : List CodeChunk}

/-- No label is defined twice, each is without a text or that of a name defined at top level, and
every such name has one. -/
structure Labels (p : Program) (labels : List Label) (n : Names) : Prop where
  nodup : labels.Nodup
  hasLabel : ∀ l ∈ labels, n.HasLabel l
  spells : ∀ l ∈ labels, n.Spells p.defined l
  defined : ∀ name ∈ p.defined, ∃ l ∈ labels, n.lookup ("_" ++ name) = some l

theorem Labels.append (h : p.Labels labels n) (hd : n.Supplies n' drawn) :
    p.Labels (labels ++ drawn) n' where
  nodup := List.nodup_append.mpr ⟨h.nodup, hd.nodup, fun l hl l' hl' heq =>
    hd.not_mem (h.hasLabel l hl) (heq ▸ hl')⟩
  hasLabel l hl := (List.mem_append.mp hl).elim
    (fun hl => Nat.lt_of_lt_of_le (h.hasLabel l hl) (Names.labels_le hd.le)) hd.hasLabel
  spells l hl := by
    rcases List.mem_append.mp hl with hl | hl
    · refine (h.spells l hl).imp (fun hblank => ?_) fun ⟨name, hname, hlook⟩ =>
        ⟨name, hname, Names.lookup_of_le hd.le hlook⟩
      rwa [Names.getElem?_labels_of_le hd.le (h.hasLabel l hl)]
    · exact Or.inl (hd.drawn l hl).2
  defined name hname := by
    obtain ⟨l, hl, hlook⟩ := h.defined name hname
    exact ⟨l, List.mem_append_left _ hl, Names.lookup_of_le hd.le hlook⟩

theorem mem_data (h : p.layout s₀ = .ok l s) (hp : p.Distinct) {chunk : DataChunk}
    (hc : chunk ∈ p.data l) :
    (∃ v, Decl.var v ∈ p.decls ∧ s.names.lookup ("_" ++ v.name) = some chunk.label) ∨
      ∃ (id : NodeId) (size : Word) (init : Option String),
        l.literals[id]? = some (.absolute chunk.label size init) := by
  rcases List.mem_append.mp ((data_perm l p).mem_iff.mp hc) with hc | hc
  · obtain ⟨d, hd, hcell⟩ := List.mem_filterMap.mp hc
    obtain ⟨v, rfl, hlook⟩ := Layouting.label_of_cell h hp hd hcell
    exact Or.inl ⟨v, hd, hlook⟩
  · obtain ⟨e, -, hlit⟩ := List.mem_filterMap.mp hc
    exact Or.inr ⟨e.id, Layouting.literal_of_chunk hlit⟩

section Outline

variable (h : p.layout s₀ = .ok l s)
  (hframes : p.functions.map (fun f => l.frames[f.1.id]?) = cs.map fun k => some k.frame)
include hframes

theorem exists_function_of_chunk {k : CodeChunk} (hk : k ∈ cs) :
    ∃ f ∈ p.functions, l.frames[f.1.id]? = some k.frame := by
  have hmem : some k.frame ∈ cs.map fun k => some k.frame := List.mem_map_of_mem hk
  rw [← hframes] at hmem
  exact List.mem_map.mp hmem

theorem exists_chunk_of_function {f : Head × Expr} (hf : f ∈ p.functions) :
    ∃ k ∈ cs, l.frames[f.1.id]? = some k.frame := by
  have hmem : l.frames[f.1.id]? ∈ p.functions.map fun f => l.frames[f.1.id]? :=
    List.mem_map_of_mem hf
  rw [hframes] at hmem
  obtain ⟨k, hk, heq⟩ := List.mem_map.mp hmem
  exact ⟨k, hk, heq.symm⟩

theorem frames_nodup (hd : Layouting.Distinct p.tops l n) (hids : (p.heads.map (·.id)).Nodup) :
    (cs.map (·.frame.label)).Nodup := by
  have hlabels : cs.map (fun k => some k.frame.label) =
      p.functions.map fun f => l.frames[f.1.id]?.map (·.label) := by
    have hmap := congrArg (List.map (Option.map Frame.label)) hframes
    simp only [List.map_map, Function.comp_def, Option.map_some] at hmap
    exact hmap.symm
  have hnd : (cs.map fun k => some k.frame.label).Nodup := by
    rw [hlabels]
    refine List.pairwise_map.mpr ?_
    refine List.Pairwise.imp_of_mem ?_ (List.pairwise_map.mp (functions_nodup hids))
    intro f g hf hg hne heq
    obtain ⟨k, -, hk⟩ := exists_chunk_of_function hframes hf
    obtain ⟨k', -, hk'⟩ := exists_chunk_of_function hframes hg
    rw [hk, hk'] at heq
    exact hne (hd.inj hk hk' (Option.some.inj heq))
  have hcomp : (cs.map fun k => some k.frame.label) = (cs.map (·.frame.label)).map some := by
    rw [List.map_map]
    rfl
  rw [hcomp] at hnd
  exact hnd.of_map some

include h

theorem layout_labels (hids : (Lowering.ids (Decl.listThroughout p.decls)).Nodup)
    (hp : p.Distinct) (hnames : (p.decls.map Decl.name).Nodup) :
    p.Labels ((p.data l).map (·.label) ++ cs.map (·.frame.label)) s.names := by
  obtain ⟨hlet, haside⟩ := Layouting.layout_lettered h
  have hdist := Layouting.layout_distinct h hp.functions
    (hnames.sublist (Decl.listRoutines_names p.decls))
  refine ⟨?_, ?_, ?_, ?_⟩
  · refine List.nodup_append.mpr ⟨Layouting.data_nodup h hp hids hnames,
      frames_nodup hframes hdist hp.functions, fun a ha b hb heq => ?_⟩
    obtain ⟨chunk, hc, rfl⟩ := List.mem_map.mp ha
    obtain ⟨k, hk, rfl⟩ := List.mem_map.mp hb
    obtain ⟨f, -, hf⟩ := exists_function_of_chunk hframes hk
    obtain ⟨v, hv, hlook⟩ | ⟨id, size, init, hlit⟩ := mem_data h hp hc
    · -- a function under the name of a variable would be declared at top level too
      rw [heq] at hlook
      obtain ⟨head, hhead, -, htext⟩ := hdist.named hf (Names.getElem?_labels_of_lookup hlook)
      exact name_ne_of_top hnames hv hhead ((String.append_right_inj "_").mp htext)
    · exact haside hlit hf heq.symm
  · intro r hr
    rcases List.mem_append.mp hr with hr | hr
    · obtain ⟨chunk, hc, rfl⟩ := List.mem_map.mp hr
      obtain ⟨v, -, hlook⟩ | ⟨id, size, init, hlit⟩ := mem_data h hp hc
      · exact Names.hasLabel_of_lookup hlook
      · exact hlet.hasLabel hlit
    · obtain ⟨k, hk, rfl⟩ := List.mem_map.mp hr
      obtain ⟨f, -, hf⟩ := exists_function_of_chunk hframes hk
      exact hdist.old hf
  · intro r hr
    rcases List.mem_append.mp hr with hr | hr
    · obtain ⟨chunk, hc, rfl⟩ := List.mem_map.mp hr
      obtain ⟨v, hv, hlook⟩ | ⟨id, size, init, hlit⟩ := mem_data h hp hc
      · exact Or.inr ⟨v.name, List.mem_filterMap.mpr ⟨_, hv, rfl⟩, hlook⟩
      · exact Or.inl (hlet.blank hlit)
    · obtain ⟨k, hk, rfl⟩ := List.mem_map.mp hr
      obtain ⟨f, hmem, hf⟩ := exists_function_of_chunk hframes hk
      exact Layouting.frame_spells hdist hp.functions hmem hf
  · intro name hname
    obtain ⟨d, hd, hdef⟩ := List.mem_filterMap.mp hname
    cases d with
    | foreign head => cases hdef
    | var v =>
      obtain rfl := Option.some.inj hdef
      obtain ⟨label, size, ha, hlook, -⟩ := Layouting.layout_var h hp hd
      exact ⟨label, List.mem_append_left _
        (List.mem_map_of_mem (f := DataChunk.label) (mem_data_of_access h ha)), hlook⟩
    | fn head body =>
      obtain rfl := Option.some.inj hdef
      obtain ⟨k, hk, hf⟩ := exists_chunk_of_function hframes (mem_functions hd)
      obtain ⟨frame, hframe, hlook⟩ := hdist.top head
        (List.mem_map.mpr ⟨_, Decl.mem_listRoutines.mpr ⟨_, hd, rfl⟩, rfl⟩)
      obtain rfl := Option.some.inj (hf.symm.trans hframe)
      exact ⟨_, List.mem_append_right _ (List.mem_map_of_mem hk), hlook⟩

end Outline

theorem compile_labels (h : p.compile s₀ = .ok c s)
    (hids : (Lowering.ids (Decl.listThroughout p.decls)).Nodup) (hp : p.Distinct)
    (hnames : (p.decls.map Decl.name).Nodup) : p.Labels c.chunks.labels s.names := by
  obtain ⟨s₁, s₂, hlayout, hlower, hchunks⟩ := compile_ok h
  rw [chunks_eq] at hchunks
  obtain ⟨cs, s₃, hbuild, hpure⟩ := bind_ok.mp hchunks
  obtain ⟨hc, rfl⟩ := pure_ok.mp hpure
  obtain ⟨fresh, hfresh, hperm⟩ := build_all_supplies hbuild
  have hfills := (Lowering.functions_lowers hlower).fills hids
  have hdrawn := (hfills.supplies.append hfresh).perm hperm.symm
  rw [hc]
  exact (layout_labels hlayout (frames_of_builtFor (builtFor_of_mapM hbuild).2) hids hp
    hnames).append hdrawn

end Typed.Program

end MmixBackend
