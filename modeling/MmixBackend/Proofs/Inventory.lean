import MmixBackend.Proofs.DataLabels

/-!
# The chunks of a program

Laying out, lowering and collecting chunks go over a program each in a way of their own.  Here the
functions of a program are listed by one recursion over its tree, wherever they are declared, each
with the functions around it.

Main statement: the code chunks of a compiled program go one by one with its functions that have a
body, a function before those around it, and the data with its variables at top level and its
literals.
-/

namespace MmixBackend

open Typed Build

namespace Typed

/-! ## Functions and where they are declared -/

/-- A function with a body, and the functions around it, the innermost first. -/
structure Definition where
  around : List Head
  head : Head
  body : Expr

mutual

/-- The functions with a body that are declared anywhere in an expression, each after those inside
it. -/
def Expr.definitions (around : List Head) : Expr → List Definition
  | .atom .. | .name .. => []
  | .index _ a b | .binary _ _ a b => a.definitions around ++ b.definitions around
  | .field _ a _ | .unary _ _ a | .deref _ a | .cast _ _ a => a.definitions around
  | .call _ _ args => Expr.listDefinitions around args
  | .block _ body => Stmt.listDefinitions around body
  | .scope _ a decls => Decl.listDefinitions around decls ++ a.definitions around

def Expr.listDefinitions (around : List Head) : List Expr → List Definition
  | [] => []
  | e :: es => e.definitions around ++ Expr.listDefinitions around es

def Stmt.definitions (around : List Head) : Stmt → List Definition
  | .assign _ dst src => dst.definitions around ++ src.definitions around
  | .eval _ e => e.definitions around
  | .cond _ test yes no =>
    test.definitions around ++ Stmt.listDefinitions around yes ++ Stmt.listDefinitions around no
  | .loop _ test body => test.definitions around ++ Stmt.listDefinitions around body

def Stmt.listDefinitions (around : List Head) : List Stmt → List Definition
  | [] => []
  | s :: ss => s.definitions around ++ Stmt.listDefinitions around ss

def Decl.definitions (around : List Head) : Decl → List Definition
  | .var _ | .foreign _ => []
  | .fn head body => body.definitions (head :: around) ++ [⟨around, head, body⟩]

def Decl.listDefinitions (around : List Head) : List Decl → List Definition
  | [] => []
  | d :: ds => d.definitions around ++ Decl.listDefinitions around ds

end

def Program.definitions (p : Program) : List Definition := Decl.listDefinitions [] p.decls

/-- The functions around each are around all of them or come later. -/
def InsideOut (around : List Head) : List Definition → Prop
  | [] => True
  | d :: ds => (∀ head ∈ d.around, head ∈ around ∨ head ∈ ds.map (·.head)) ∧ InsideOut around ds

section Definitions

variable {around : List Head} {defs defs' : List Definition} {rs rs' : List Routine}

theorem InsideOut.append (h : InsideOut around defs) (h' : InsideOut around defs') :
    InsideOut around (defs ++ defs') := by
  induction defs with
  | nil => exact h'
  | cons d ds ih =>
    rw [List.cons_append, InsideOut, List.map_append]
    exact ⟨fun head hh => (h.1 head hh).imp_right (List.mem_append_left _), ih h.2⟩

/-- A function comes after those inside it. -/
theorem InsideOut.snoc {head : Head} {body : Expr} (h : InsideOut (head :: around) defs) :
    InsideOut around (defs ++ [⟨around, head, body⟩]) := by
  induction defs with
  | nil => exact ⟨fun _ hh => Or.inl hh, trivial⟩
  | cons d ds ih =>
    rw [List.cons_append, InsideOut, List.map_append]
    refine ⟨fun g hg => ?_, ih h.2⟩
    rw [List.mem_append]
    rcases h.1 g hg with hin | hin
    · rcases List.mem_cons.mp hin with rfl | hin
      · exact Or.inr (Or.inr (List.mem_singleton.mpr rfl))
      · exact Or.inl hin
    · exact Or.inr (Or.inl hin)

theorem InsideOut.mem_after {before after : List Definition} {d : Definition}
    (h : InsideOut around (before ++ d :: after)) :
    ∀ head ∈ d.around, head ∈ around ∨ head ∈ after.map (·.head) := by
  induction before with
  | nil => exact h.1
  | cons _ _ ih => exact ih h.2

/-- The functions listed are those of these trees. -/
structure Defines (around : List Head) (defs : List Definition) (rs : List Routine) : Prop where
  functions : defs.map (fun d => (d.head, d.body)) = Routine.listFunctions rs
  items : ∀ d ∈ defs, Item.function d.around d.head (some d.body) ∈ Routine.listItems around rs
  order : InsideOut around defs

theorem defines_nil : Defines around [] [] := ⟨rfl, by simp, trivial⟩

theorem Defines.append (h : Defines around defs rs) (h' : Defines around defs' rs') :
    Defines around (defs ++ defs') (rs ++ rs') where
  functions := by
    rw [List.map_append, h.functions, h'.functions, Routine.listFunctions_append]
  items d hd := by
    rw [Routine.listItems_append, List.mem_append]
    exact (List.mem_append.mp hd).imp (h.items d) (h'.items d)
  order := h.order.append h'.order

theorem Defines.fn {head : Head} {body : Expr} (h : Defines (head :: around) defs body.routines) :
    Defines around (defs ++ [⟨around, head, body⟩]) [.mk head (some body) body.routines] where
  functions := by
    rw [List.map_append, h.functions, Routine.listFunctions, Routine.functions,
      Routine.listFunctions, List.append_nil, List.map_singleton]
  items d hd := by
    rw [Routine.listItems, Routine.items, Routine.listItems, List.append_nil, List.mem_cons]
    rcases List.mem_append.mp hd with hd | hd
    · exact Or.inr (h.items d hd)
    · obtain rfl := List.mem_singleton.mp hd
      exact Or.inl rfl
  order := h.order.snoc

end Definitions

mutual

theorem Expr.defines (around : List Head) :
    ∀ e : Expr, Defines around (e.definitions around) e.routines
  | .atom .. | .name .. => defines_nil
  | .index _ a b | .binary _ _ a b => (a.defines around).append (b.defines around)
  | .field _ a _ | .unary _ _ a | .deref _ a | .cast _ _ a => a.defines around
  | .call _ _ args => Expr.listDefines around args
  | .block _ body => Stmt.listDefines around body
  | .scope _ a decls => (Decl.listDefines around decls).append (a.defines around)

theorem Expr.listDefines (around : List Head) :
    ∀ es : List Expr, Defines around (Expr.listDefinitions around es) (Expr.listRoutines es)
  | [] => defines_nil
  | e :: es => (e.defines around).append (Expr.listDefines around es)

theorem Stmt.defines (around : List Head) :
    ∀ s : Stmt, Defines around (s.definitions around) s.routines
  | .assign _ dst src => (dst.defines around).append (src.defines around)
  | .eval _ e => e.defines around
  | .cond _ test yes no =>
    ((test.defines around).append (Stmt.listDefines around yes)).append
      (Stmt.listDefines around no)
  | .loop _ test body => (test.defines around).append (Stmt.listDefines around body)

theorem Stmt.listDefines (around : List Head) :
    ∀ ss : List Stmt, Defines around (Stmt.listDefinitions around ss) (Stmt.listRoutines ss)
  | [] => defines_nil
  | s :: ss => (s.defines around).append (Stmt.listDefines around ss)

theorem Decl.defines (around : List Head) :
    ∀ d : Decl, Defines around (d.definitions around) d.routine?.toList
  | .var _ => defines_nil
  | .foreign _ => ⟨rfl, List.forall_mem_nil _, trivial⟩
  | .fn head body => .fn (body.defines (head :: around))

theorem Decl.listDefines (around : List Head) :
    ∀ ds : List Decl, Defines around (Decl.listDefinitions around ds) (Decl.listRoutines ds)
  | [] => defines_nil
  | d :: ds => (d.defines around).append (Decl.listDefines around ds)

end

/-! ## Chunks -/

def Program.variables (p : Program) : List Var := p.decls.filterMap fun
  | .var v => some v
  | .foreign _ | .fn .. => none

/-- The literals in the bodies of all functions of a program: their nodes and their texts. -/
def Program.literals (p : Program) : List (Node × String) :=
  (Decl.listThroughout p.decls).filterMap fun
    | .atom node (.str text) => some (node, text)
    | _ => none

end Typed

/-- The code chunk of a function: it has the function's frame, at the depth of the function. -/
structure CodeChunk.IsOf (layout : Layout) (k : CodeChunk) (d : Definition) : Prop where
  name : k.name = d.head.name
  loc : k.loc = d.head.loc
  frame : layout.frames[d.head.id]? = some k.frame
  depth : k.frame.depth = d.around.length

/-- The data chunk of a variable, under the label of its name. -/
structure DataChunk.IsOfVar (names : Names) (k : DataChunk) (v : Var) : Prop where
  label : names.lookup ("_" ++ v.name) = some k.label
  size : v.ty.size = .ok k.size
  init : k.init = none

/-- The data chunk of a literal, under the label that its node has: a word for each octet of the
text, and one more. -/
structure DataChunk.IsOfLiteral (layout : Layout) (k : DataChunk) (x : Node × String) : Prop where
  node : layout.literals[x.1.id]? = some (.absolute k.label k.size k.init)
  size : k.size = Int64.ofNat ((x.2.utf8ByteSize + 1) * 8)
  init : k.init = some x.2

namespace Typed.Program

variable {p : Program} {s₀ s : Session} {c : Compiled} {l : Layout}

theorem forall₂_filterMap {α β γ : Type} {R : β → γ → Prop} {f : α → Option β} {g : α → Option γ}
    {as : List α} (h : ∀ a ∈ as, Option.Rel R (f a) (g a)) :
    List.Forall₂ R (as.filterMap f) (as.filterMap g) := by
  have hsame : List.Forall₂ (fun a b => a = b ∧ a ∈ as) as as :=
    List.forall₂_same.mpr fun a ha => ⟨rfl, ha⟩
  exact List.rel_filterMap (fun {a b} hab => hab.1 ▸ h a hab.2) hsame

theorem layout_variables (h : p.layout s₀ = .ok l s) (hp : p.Distinct) :
    List.Forall₂ (DataChunk.IsOfVar s.names) (p.decls.filterMap (Decl.cell l)) p.variables := by
  refine forall₂_filterMap fun d hd => ?_
  cases d with
  | foreign | fn => exact .none
  | var v =>
    obtain ⟨label, size, ha, hlook, hsize⟩ := Layouting.layout_var h hp hd
    rw [Decl.cell, ha]
    exact .some ⟨hlook, hsize, rfl⟩

theorem layout_literals (h : p.layout s₀ = .ok l s) (hp : p.Distinct)
    (hids : (Lowering.ids (Decl.listThroughout p.decls)).Nodup) :
    List.Forall₂ (DataChunk.IsOfLiteral l)
      ((Decl.listThroughout p.decls).filterMap (·.literalChunk? l)) p.literals := by
  refine forall₂_filterMap fun e he => ?_
  cases e with
  | atom node a =>
    cases a with
    | str text =>
      obtain ⟨f, hf, hin⟩ := List.mem_flatMap.mp ((nodes_perm p).mem_iff.mp he)
      obtain ⟨around, hi⟩ := exists_item hf
      have hown : node.id ∈ (Item.function around f.1 (some f.2)).literals :=
        List.mem_flatMap.mpr ⟨.atom node (.str text), by simpa [Item.exprs] using hin,
          List.mem_singleton_self _⟩
      obtain ⟨label, size, init, hlit⟩ :=
        ((Layouting.layout_recorded hp).ok h).2.literal _ hi _ hown
      -- the node with that number has the text that was entered
      obtain ⟨node', text', hnode, hid, rfl, rfl⟩ := Layouting.layout_text h hlit
      cases List.inj_on_of_nodup_map hids he ((nodes_perm p).mem_iff.mpr hnode) hid.symm
      rw [Expr.literalChunk?, hlit]
      exact .some ⟨hlit, rfl, rfl⟩
    | void | nil | bool | char | int => exact .none
  | name | index | field | binary | unary | deref | call | cast | block | scope => exact .none

/-- Every function with a body has one code chunk, after the chunks of the functions inside it, and
every variable at top level and every literal has one data chunk. -/
theorem compile_chunks (h : p.compile s₀ = .ok c s)
    (hids : (Lowering.ids (Decl.listThroughout p.decls)).Nodup) (hp : p.Distinct) :
    List.Forall₂ (CodeChunk.IsOf c.layout) c.chunks.code p.definitions ∧
    (p.definitions.map (·.head.id)).Nodup ∧
    (∀ before d after, p.definitions = before ++ d :: after → ∀ head ∈ d.around,
      head ∈ after.map (·.head) ∧ head ∉ before.map (·.head)) ∧
    ∃ cells texts, c.chunks.data.Perm (cells ++ texts) ∧
      List.Forall₂ (DataChunk.IsOfVar s.names) cells p.variables ∧
      List.Forall₂ (DataChunk.IsOfLiteral c.layout) texts p.literals ∧
      (texts.map (·.label)).Nodup ∧ ∀ k ∈ cells, k.label ∉ texts.map (·.label) := by
  obtain ⟨s₁, s₂, hlayout, hlower, hchunks⟩ := compile_ok h
  have hof := chunksOf hchunks
  have hdefs := Decl.listDefines [] p.decls
  have hnodup : (p.definitions.map (·.head.id)).Nodup := by
    have hfns := functions_nodup hp.functions
    rwa [functions, ← hdefs.functions, List.map_map] at hfns
  refine ⟨?_, hnodup, fun before d after hsplit head hh => ?_, ?_⟩
  · have hcode := hof.code
    rw [functions, ← hdefs.functions, List.forall₂_map_right_iff] at hcode
    refine (((List.forall₂_and_left _ _).mpr ⟨hdefs.items, hcode.flip⟩).imp ?_).flip
    rintro d k ⟨hd, r, r', hbuild, -⟩
    obtain ⟨_, _, _, hframe, -, -, -, -, -, hname, hloc⟩ := CodeChunk.build_ok hbuild
    have hi := function_mem_items.mpr hd
    exact ⟨hname, hloc, hframe, (Layouting.made_of_frame hlayout hp.functions hi hframe).depth⟩
  · have horder := hdefs.order
    rw [definitions] at hsplit hnodup
    rw [hsplit] at horder hnodup
    have hafter := (horder.mem_after head hh).resolve_left List.not_mem_nil
    refine ⟨hafter, fun hbefore => ?_⟩
    rw [List.map_append, List.map_cons, List.nodup_append] at hnodup
    obtain ⟨f, hf, rfl⟩ := List.mem_map.mp hbefore
    obtain ⟨g, hg, hgf⟩ := List.mem_map.mp hafter
    exact hnodup.2.2 _ (List.mem_map_of_mem hf) _
      (List.mem_cons_of_mem _ (List.mem_map_of_mem hg)) (by rw [hgf])
  · have hle : s₁.names ≤ s.names :=
      Names.le_trans (Lowering.functions_lowers hlower).change.names hof.names
    refine ⟨_, _, ?_, (layout_variables hlayout hp).imp fun k v hk => ?_,
      layout_literals hlayout hp hids, (Layouting.layout_lettered hlayout).1.literals_nodup hids, ?_⟩
    · rw [hof.data]
      exact (data_perm _ p).trans (((nodes_perm p).symm.filterMap _).append_left _)
    · exact ⟨Names.lookup_of_le hle hk.label, hk.size, hk.init⟩
    · rintro k hk hin
      obtain ⟨k', hk', heq⟩ := List.mem_map.mp hin
      exact Layouting.cell_ne_literal hlayout hp hk hk' heq.symm

/-- A function inside one inside `main`, the innermost in an index, and a literal in each. -/
def stacked : Program where
  decls := [
    .fn ⟨⟨0⟩, "main", [], .int, {}⟩ (.scope (.value 0)
      (.cast (.value 1) .int (.atom ⟨⟨2⟩, .ptr .char, false, {}⟩ (.str "é")))
      [.fn ⟨⟨1⟩, "f", [], .char, {}⟩ (.index ⟨⟨3⟩, .char, true, {}⟩
        (.deref ⟨⟨4⟩, .array .char 2, true, {}⟩ (.atom ⟨⟨5⟩, .ptr .char, false, {}⟩ (.str "")))
        (.scope (.value 6) (.atom (.value 7) (.int 1))
          [.fn ⟨⟨2⟩, "g", [], .ptr .char, {}⟩
            (.atom ⟨⟨8⟩, .ptr .char, false, {}⟩ (.str "ab"))]))]),
    .var ⟨⟨3⟩, "x", .array .int 3, {}⟩]

theorem compile_chunks_stacked :
    (Lowering.ids (Decl.listThroughout stacked.decls)).Nodup ∧ stacked.Distinct ∧
      stacked.definitions.map (fun d => (d.head.name, d.around.map (·.name))) =
        [("g", ["f", "main"]), ("f", ["main"]), ("main", [])] ∧
      stacked.variables.map (·.name) = ["x"] ∧ stacked.literals.map (·.2) = ["é", "", "ab"] ∧
      ∃ c s, stacked.compile {} = .ok c s ∧
        List.Forall₂ (CodeChunk.IsOf c.layout) c.chunks.code stacked.definitions ∧
        ∃ cells texts, c.chunks.data.Perm (cells ++ texts) ∧
          List.Forall₂ (DataChunk.IsOfVar s.names) cells stacked.variables ∧
          List.Forall₂ (DataChunk.IsOfLiteral c.layout) texts stacked.literals := by
  have hids : (Lowering.ids (Decl.listThroughout stacked.decls)).Nodup := by decide
  have hp : stacked.Distinct :=
    ⟨⟨⟨by decide, by decide⟩, by decide⟩, by decide⟩
  have hrun : ∃ c s, stacked.compile {} = .ok c s := by decide +kernel
  obtain ⟨c, s, hc⟩ := hrun
  obtain ⟨hcode, -, -, cells, texts, hdata, hcells, htexts, -⟩ := compile_chunks hc hids hp
  exact ⟨hids, hp, by decide, by decide, by decide, c, s, hc, hcode, cells, texts, hdata, hcells,
    htexts⟩

end Typed.Program

end MmixBackend
