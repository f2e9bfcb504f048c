import MmixBackend.Proofs.Safety
import MmixBackend.Proofs.Shape

/-!
# Lexical scope

A function sees its own variables and parameters, those of the functions around it and the variables
at top level.  It calls the functions declared at top level, in itself and in the functions around
it.

When all functions keep to that, the code that lowering makes of a body goes up the right number of
static links: a variable of the `n`th function around is reached over `n` links, and a callee is
handed the link to the function that it is declared in.  And it stores nothing but arguments and
variables, each within the bytes that the layout has for it.
-/

namespace MmixBackend

open Typed Build

/-! ## What a function sees -/

namespace Typed

/-- The numbers of a function and of those around it, the innermost first. -/
def Item.nesting : Item → List DeclId
  | .function around head _ => (head :: around).map (·.id)
  | .var _ => []

/-- Inside of these functions `d` is a variable or a parameter in sight. -/
def Program.sees (p : Program) (nesting : List DeclId) (d : DeclId) : Bool :=
  p.items.any fun i => (i.vars.map (·.1)).contains d && i.nesting.isSuffixOf nesting

/-- Inside of these functions `f` is a function in sight, with parameters of the sizes that the
arguments have. -/
def Program.calls (p : Program) (nesting : List DeclId) (f : DeclId) (args : List Expr) : Bool :=
  p.items.any fun
    | .function around head _ =>
      head.id == f && (around.map (·.id)).isSuffixOf nesting &&
        args.map (·.ty.size) == head.params.map (·.ty.size)
    | .var _ => false

/-- What the expression itself names or calls is in sight. -/
def Expr.inSight (p : Program) (nesting : List DeclId) : Expr → Bool
  | .name _ d => p.sees nesting d
  | .call _ f args => p.calls nesting f args
  | _ => true

def Expr.isName : Expr → Bool
  | .name .. => true
  | _ => false

/-- In every function body, nested ones included, what is named or called is in sight. -/
def Program.isLexical (p : Program) : Bool :=
  p.items.all fun i => i.exprs.all (·.inSight p i.nesting)

/-! ## Functions around functions -/

/-- The number of a function tells it from all others. -/
theorem Program.item_unique {p : Program} (hids : (p.heads.map (·.id)).Nodup)
    {around around' : List Head} {head head' : Head} {body body' : Option Expr}
    (h : Item.function around head body ∈ p.items)
    (h' : Item.function around' head' body' ∈ p.items) (hid : head.id = head'.id) :
    Item.function around head body = Item.function around' head' body' := by
  obtain ⟨before, after, hsplit⟩ := List.append_of_mem h
  rw [← Program.filterMap_items, hsplit] at hids
  simp only [List.filterMap_append, List.filterMap_cons, Item.head?, List.map_append,
    List.map_cons] at hids
  obtain ⟨-, hrest, hdisj⟩ := List.nodup_append.mp hids
  have hin : ∀ {is : List Item}, Item.function around' head' body' ∈ is →
      head.id ∈ (is.filterMap Item.head?).map (·.id) := fun hmem =>
    hid ▸ List.mem_map_of_mem (List.mem_filterMap.mpr ⟨_, hmem, rfl⟩)
  rw [hsplit] at h'
  rcases List.mem_append.mp h' with h' | h'
  · exact absurd rfl (hdisj _ (hin h') _ List.mem_cons_self)
  · rcases List.mem_cons.mp h' with h' | h'
    · exact h'.symm
    · exact absurd (hin h') (List.nodup_cons.mp hrest).1

mutual

theorem Routine.item_around {head : Head} {body : Option Expr} {h : Head} {around rest : List Head}
    (hs : h :: rest <:+ around) :
    ∀ {outer : List Head} {r : Routine}, Item.function around head body ∈ r.items outer →
      h :: rest <:+ outer ∨ ∃ b, Item.function rest h b ∈ r.items outer
  | outer, .mk g e inner, hi => by
    rcases List.mem_cons.mp hi with hi | hi
    · cases hi
      exact Or.inl hs
    · rcases Routine.listItem_around hs hi with hg | ⟨b, hb⟩
      · rcases List.suffix_cons_iff.mp hg with heq | hg
        · cases heq
          exact Or.inr ⟨e, List.mem_cons_self⟩
        · exact Or.inl hg
      · exact Or.inr ⟨b, List.mem_cons_of_mem _ hb⟩

theorem Routine.listItem_around {head : Head} {body : Option Expr} {h : Head}
    {around rest : List Head} (hs : h :: rest <:+ around) :
    ∀ {outer : List Head} {rs : List Routine},
      Item.function around head body ∈ Routine.listItems outer rs →
      h :: rest <:+ outer ∨ ∃ b, Item.function rest h b ∈ Routine.listItems outer rs
  | _, [], hi => by cases hi
  | outer, r :: rs, hi => by
    rcases List.mem_append.mp hi with hi | hi
    · exact (Routine.item_around hs hi).imp_right fun ⟨b, hb⟩ => ⟨b, List.mem_append_left _ hb⟩
    · exact (Routine.listItem_around hs hi).imp_right
        fun ⟨b, hb⟩ => ⟨b, List.mem_append_right _ hb⟩

end

/-- Each function around a function is one of the program, and around it are the rest. -/
theorem Program.item_around {p : Program} {around rest : List Head} {head h : Head}
    {body : Option Expr} (hi : Item.function around head body ∈ p.items)
    (hs : h :: rest <:+ head :: around) : ∃ b, Item.function rest h b ∈ p.items := by
  rcases List.suffix_cons_iff.mp hs with heq | hs
  · cases heq
    exact ⟨body, hi⟩
  · rcases Routine.listItem_around hs (Program.function_mem_items.mp hi) with hnil | ⟨b, hb⟩
    · exact absurd (List.suffix_nil.mp hnil) (List.cons_ne_nil _ _)
    · exact ⟨b, Program.function_mem_items.mpr hb⟩

/-- Where the numbers of functions agree, the functions do. -/
theorem Program.suffix_of_nesting {p : Program} (hids : (p.heads.map (·.id)).Nodup)
    {around around' : List Head} {head head' : Head} {body body' : Option Expr}
    (hi : Item.function around head body ∈ p.items)
    (hi' : Item.function around' head' body' ∈ p.items)
    (hs : (Item.function around' head' body').nesting <:+
      (Item.function around head body).nesting) :
    head' :: around' <:+ head :: around := by
  obtain ⟨pre, hpre⟩ := hs
  obtain ⟨before, after, hsplit, -, hafter⟩ := List.append_eq_map_iff.mp hpre
  obtain ⟨h, rest, rfl, hid, -⟩ := List.map_eq_cons_iff.mp hafter
  have hsuffix : h :: rest <:+ head :: around := ⟨before, hsplit.symm⟩
  obtain ⟨b, hb⟩ := Program.item_around hi hsuffix
  cases Program.item_unique hids hb hi' hid
  exact hsuffix

end Typed

/-! ## What code does with frames -/

/-- A place in a program: a function with those around it, the innermost first, and its frame. -/
structure Nest where
  program : Program
  layout : Layout
  chain : List Head
  frame : Frame

namespace Nest

variable (N : Nest)

/-- At the offset from the frame pointer of the `n`th function around is a variable or a parameter
of that function. -/
def Cell (n : Nat) (offset : Word) : Prop :=
  ∃ h f, N.chain[n]? = some h ∧ N.layout.frames[h.id]? = some f ∧
    (8 ≤ offset.toInt ∧ offset.toInt ≤ h.bytes ∨
      -f.locals.toInt ≤ offset.toInt ∧ offset.toInt + 8 ≤ 0)

/-- The `k`th function around is the one that a function under the label is declared in, unless that
is at top level, and the area for arguments has room for its parameters. -/
def Admits (l : Label) (k : Nat) : Prop :=
  k < N.chain.length ∧
    ∀ around head body f, Item.function around head (some body) ∈ N.program.items →
      N.layout.frames[head.id]? = some f → f.label = l →
      8 + head.bytes ≤ N.frame.arguments.toInt ∧ (around = [] ∨ around = N.chain.drop k)

/-- A call hands on a static link that the callee admits, and arguments in their area. -/
def Calls (l : Label) (offsets : List Word) (args : List Ir.Expr) : Prop :=
  ∃ k os as, offsets = 0 :: os ∧ args = Lowering.follow k (.temp N.frame.fp) :: as ∧ N.Admits l k ∧
    ∀ o ∈ os, 8 ≤ o.toInt ∧ o.toInt + 8 ≤ N.frame.arguments.toInt

/-- Memory that is stored to: a variable at top level, or one in a frame. -/
def Stores (dst : Ir.Expr) : Prop :=
  (∃ l, dst = .mem (.name l)) ∨
    ∃ n offset, dst = Lowering.wordAt (Lowering.follow n (.temp N.frame.fp)) offset ∧
      N.Cell n offset

end Nest

namespace Ir

mutual

/-- The expression calls and stores as its place in the program has it. -/
def Expr.Sited (N : Nest) : Expr → Prop
  | .const _ | .name _ | .temp _ => True
  | .mem a => a.Sited N
  | .binary _ l r => l.Sited N ∧ r.Sited N
  | .unary _ e => e.Sited N
  | .call l offsets args => N.Calls l offsets args ∧ Expr.AllSited N args
  | .after s e => s.Sited N ∧ e.Sited N

def Expr.AllSited (N : Nest) : List Expr → Prop
  | [] => True
  | e :: es => e.Sited N ∧ Expr.AllSited N es

/-- The statement calls and stores as its place in the program has it. -/
def Stmt.Sited (N : Nest) : Stmt → Prop
  | .move dst src => N.Stores dst ∧ src.Sited N
  | .eval e | .branch e _ _ => e.Sited N
  | .jump _ | .label _ => True
  | .seq ss => Stmt.AllSited N ss

def Stmt.AllSited (N : Nest) : List Stmt → Prop
  | [] => True
  | s :: ss => s.Sited N ∧ Stmt.AllSited N ss

end

theorem Stmt.allSited_append {N : Nest} {ss ts : List Stmt} :
    Stmt.AllSited N (ss ++ ts) ↔ Stmt.AllSited N ss ∧ Stmt.AllSited N ts := by
  induction ss with
  | nil => simp [Stmt.AllSited]
  | cons s ss ih => rw [List.cons_append, Stmt.AllSited, Stmt.AllSited, ih, and_assoc]

end Ir

/-! ## What lowering makes -/

/-- What the expression itself names or calls is where the code for it will look. -/
def Nest.Finds (N : Nest) : Expr → Prop
  | .name _ d => ∀ offset depth, N.layout.accesses[d]? = some (.relative offset depth) →
    N.Cell (N.frame.depth - depth) offset
  | .call _ f args =>
    (∀ target, N.layout.frames[f]? = some target →
      N.Admits target.label (if target.depth = 0 then 0 else N.frame.depth + 1 - target.depth)) ∧
    (∀ a ∈ args, ∀ n, a.ty.size = .ok n → Word.size ≤ n) ∧
    8 + (args.map (·.ty.bytes)).sum ≤ N.frame.arguments.toInt
  | .unary _ .new _ | .unary _ .del _ => 16 ≤ N.frame.arguments.toInt
  | _ => True

namespace Lowering

theorem follow_succ (n : Nat) (e : Ir.Expr) : follow (n + 1) e = .mem (follow n e) := by
  induction n generalizing e with
  | zero => rfl
  | succ n ih => rw [follow, ih, follow]

theorem sited_follow {N : Nest} (n : Nat) {e : Ir.Expr} (h : e.Sited N) : (follow n e).Sited N := by
  induction n generalizing e with
  | zero => exact h
  | succ n ih => exact ih h

/-- Arguments lie one after another. -/
theorem Lowers.offsets {scope : Scope} {args : List Expr} {offset : Word} {os : List Word}
    {vs : List Ir.Expr} {t t' : Lowered} {s s' : Session}
    (h : Lowers scope (.arguments offset args os vs) t s t' s')
    (hsizes : ∀ a ∈ args, ∀ n, a.ty.size = .ok n → Word.size ≤ n) :
    ∀ o ∈ os, offset.toInt ≤ o.toInt ∧
      o.toInt + 8 ≤ offset.toInt + (args.map (·.ty.bytes)).sum := by
  induction args generalizing offset os vs t s with
  | nil =>
    cases h
    simp
  | cons a as ih =>
    cases h with
    | @argument _ _ _ _ n _ next os vs _ t₁ _ _ s₁ _ _ hn hnext h₂ =>
    have hnextInt := Word.toInt_checkedAdd hnext
    have hfirst : (8 : Int) ≤ n.toInt :=
      Int64.le_iff_toInt_le.mp (hsizes a List.mem_cons_self n hn)
    have hothers : ∀ b ∈ as, ∀ n, b.ty.size = .ok n → Word.size ≤ n := fun b hb =>
      hsizes b (List.mem_cons_of_mem _ hb)
    have hrest := ih h₂ hothers
    have hsum := Ty.sum_bytes_nonneg hothers
    rw [List.map_cons, List.sum_cons, Ty.bytes_eq hn]
    intro o ho
    rcases List.mem_cons.mp ho with rfl | ho
    · omega
    · have hbounds := hrest o ho
      omega

section Sited

variable {N : Nest} {scope : Scope} {names : Names}

/-- A variable that is found is memory that may be stored to. -/
theorem Leaf.stores (hf : scope.frame = some N.frame) (hl : scope.layout = N.layout) {node : Node}
    {d : DeclId} {ir : Ir.Expr} (h : Leaf scope (.name node d) ir) (hd : N.Finds (.name node d)) :
    N.Stores ir := by
  cases h with
  | static => exact Or.inl ⟨_, rfl⟩
  | framed hacc hframe =>
    obtain rfl := Option.some.inj (hf.symm.trans hframe)
    exact Or.inr ⟨_, _, rfl, hd _ _ (hl ▸ hacc)⟩

theorem sited_of_stores {dst : Ir.Expr} (h : N.Stores dst) : dst.Sited N := by
  obtain ⟨l, rfl⟩ | ⟨n, offset, rfl, -⟩ := h
  · trivial
  · exact ⟨sited_follow n trivial, trivial⟩

/-- Allocation and release are called under labels of no function. -/
def Provided (N : Nest) (names : Names) : Prop :=
  ∀ op l, op = .new ∨ op = .del → names.lookup (runtimeName op) = some l → N.Admits l 0

/-- What a part names and calls is found, and it assigns to variables only. -/
def Part.Found (N : Nest) : Part → Prop
  | .code e _ | .expr e _ => (∀ a ∈ e.within, N.Finds a) ∧ e.assigns Expr.isName
  | .arguments _ args _ _ =>
    (∀ a ∈ Expr.listWithin args, N.Finds a) ∧ Expr.allAssign Expr.isName args
  | .block ss _ _ | .stmts ss _ =>
    (∀ a ∈ Stmt.listWithin ss, N.Finds a) ∧ Stmt.allAssign Expr.isName ss
  | .stmt st _ => (∀ a ∈ st.within, N.Finds a) ∧ st.assigns Expr.isName
  | .functions _ => True

/-- All code of a part calls and stores as its place in the program has it. -/
def Part.Sited (N : Nest) : Part → Prop
  | .code _ ir | .expr _ ir => ir.Sited N
  | .arguments _ _ _ vs => Ir.Expr.AllSited N vs
  | .block _ xs v => Ir.Stmt.AllSited N xs ∧ v.Sited N
  | .stmt _ x => x.Sited N
  | .stmts _ xs => Ir.Stmt.AllSited N xs
  | .functions _ => True

theorem Wrap.found {e e' : Expr} {v ir : Ir.Expr} (h : Wrap scope e e' v ir)
    (hin : (Part.code e ir).Found N) : (Part.expr e' v).Found N := by
  cases h <;>
    simp only [Part.Found, Expr.within, List.forall_mem_cons, Expr.assigns] at hin <;>
    exact ⟨hin.1.2, hin.2⟩

theorem Join.found {e e₁ e₂ : Expr} {v₁ v₂ ir : Ir.Expr} (h : Join e e₁ e₂ v₁ v₂ ir)
    (hin : (Part.code e ir).Found N) : (Part.expr e₁ v₁).Found N ∧ (Part.expr e₂ v₂).Found N := by
  cases h <;>
    simp only [Part.Found, Expr.within, List.forall_mem_cons, List.forall_mem_append,
      Expr.assigns, Bool.and_eq_true] at hin <;>
    exact ⟨⟨hin.1.2.1, hin.2.1⟩, hin.1.2.2, hin.2.2⟩

theorem Lowers.sited {p : Part} {t t' : Lowered} {s s' : Session} (h : Lowers scope p t s t' s')
    (hf : scope.frame = some N.frame) (hl : scope.layout = N.layout) (hrun : Provided N names)
    (hle : s'.names ≤ names) (hin : p.Found N) : p.Sited N := by
  have hword : Word.size.toInt = 8 := rfl
  induction h with
  | entered _ _ ih => exact ih hf hl hle hin
  | leaf h =>
    cases h with
    | word | literal | static => trivial
    | framed => exact ⟨sited_follow _ trivial, trivial⟩
  | wrap h _ ih =>
    have hv := ih hf hl hle (h.found hin)
    cases h with
    | field | char => exact ⟨hv, trivial⟩
    | plus | minus | not | addressOf | deref | cast => exact hv
  | join h _ h₂ ih₁ ih₂ =>
    have hv₁ := ih₁ hf hl (Names.le_trans h₂.change.names hle) (h.found hin).1
    have hv₂ := ih₂ hf hl hle (h.found hin).2
    cases h with
    | index => exact ⟨hv₁, hv₂, trivial⟩
    | binary => exact ⟨hv₁, hv₂⟩
  | @runtime _ _ op _ _ _ _ _ _ _ hop hframe h₁ ih =>
    simp only [Part.Found, Expr.within, List.forall_mem_cons, Expr.assigns] at hin
    obtain rfl := Option.some.inj (hf.symm.trans hframe)
    have hadmits := hrun op _ hop (Names.lookup_of_le (Names.le_trans h₁.change.names hle)
      (Names.named_lookup _ _))
    have hroom : 16 ≤ N.frame.arguments.toInt := by
      rcases hop with rfl | rfl <;> exact hin.1.1
    refine ⟨⟨0, [Word.size], _, rfl, rfl, hadmits, fun o ho => ?_⟩, trivial,
      ih hf hl hle ⟨hin.1.2, hin.2⟩, trivial⟩
    obtain rfl := List.mem_singleton.mp ho
    omega
  | call htarget hframe _ h₁ ih =>
    simp only [Part.Found, Expr.within, List.forall_mem_cons, Expr.assigns] at hin
    obtain rfl := Option.some.inj (hf.symm.trans hframe)
    obtain ⟨hadmits, hsizes, hroom⟩ := hin.1.1
    refine ⟨⟨_, _, _, rfl, rfl, hadmits _ (hl ▸ htarget), fun o ho => ?_⟩, sited_follow _ trivial,
      ih hf hl hle ⟨hin.1.2, hin.2⟩⟩
    have hbounds := h₁.offsets hsizes o ho
    omega
  | block _ ih | scope _ _ _ ih =>
    simp only [Part.Found, Expr.within, List.forall_mem_cons, Expr.assigns] at hin
    exact ih hf hl hle ⟨hin.1.2, hin.2⟩
  | noArguments | noStmts | noFunctions | var | foreign | fn => trivial
  | noResult => exact ⟨trivial, trivial⟩
  | argument _ _ _ h₂ ih₁ ih₂ | stmt _ h₂ ih₁ ih₂ =>
    simp only [Part.Found, Expr.listWithin, Stmt.listWithin, List.forall_mem_append,
      Expr.allAssign, Stmt.allAssign, Bool.and_eq_true] at hin
    exact ⟨ih₁ hf hl (Names.le_trans h₂.change.names hle) ⟨hin.1.1, hin.2.1⟩,
      ih₂ hf hl hle ⟨hin.1.2, hin.2.2⟩⟩
  | result _ ih =>
    simp only [Part.Found, Stmt.listWithin, Stmt.within, List.append_nil, Stmt.allAssign,
      Stmt.assigns, Bool.and_true] at hin
    exact ⟨trivial, ih hf hl hle hin⟩
  | next _ _ h₂ ih₁ ih₂ =>
    simp only [Part.Found, Stmt.listWithin, List.forall_mem_append, Stmt.allAssign,
      Bool.and_eq_true] at hin
    have hfirst := ih₁ hf hl (Names.le_trans h₂.change.names hle) ⟨hin.1.1, hin.2.1⟩
    obtain ⟨hrest, hv⟩ := ih₂ hf hl hle ⟨hin.1.2, hin.2.2⟩
    exact ⟨⟨hfirst, hrest⟩, hv⟩
  | @assign _ _ dst _ _ _ _ _ _ _ _ _ h₁ _ _ ih₂ =>
    simp only [Part.Found, Stmt.within, List.forall_mem_append, Stmt.assigns,
      Bool.and_eq_true] at hin
    refine ⟨?_, ih₂ hf hl hle ⟨hin.1.2, hin.2.2⟩⟩
    cases dst with
    | name node d =>
      obtain ⟨-, h₁⟩ := h₁
      cases h₁ with
      | leaf h => exact h.stores hf hl (hin.1.1 _ (List.mem_singleton_self _))
      | wrap h => cases h
      | join h => cases h
    | atom | index | field | binary | unary | deref | call | cast | block | scope =>
      exact absurd hin.2.1.1 (by simp [Expr.isName])
  | eval _ ih => exact ih hf hl hle hin
  | cond _ h₂ h₃ hx ih₁ ih₂ ih₃ =>
    simp only [Part.Found, Stmt.within, List.forall_mem_append, Stmt.assigns,
      Bool.and_eq_true] at hin
    have hle₂ := Names.le_trans h₃.change.names hle
    have htest := ih₁ hf hl (Names.le_trans h₂.change.names hle₂) ⟨hin.1.1.1, hin.2.1.1⟩
    simp only [hx, Part.Sited, Ir.Stmt.Sited, Ir.Stmt.AllSited, Ir.Stmt.allSited_append, and_true]
    exact ⟨⟨htest, ih₂ hf hl hle₂ ⟨hin.1.1.2, hin.2.1.2⟩⟩, ih₃ hf hl hle ⟨hin.1.2, hin.2.2⟩⟩
  | loop _ h₂ hx ih₁ ih₂ =>
    simp only [Part.Found, Stmt.within, List.forall_mem_append, Stmt.assigns,
      Bool.and_eq_true] at hin
    simp only [hx, Part.Sited, Ir.Stmt.Sited, Ir.Stmt.AllSited, Ir.Stmt.allSited_append, and_true,
      true_and]
    exact ⟨ih₁ hf hl (Names.le_trans h₂.change.names hle) ⟨hin.1.1, hin.2.1⟩,
      ih₂ hf hl hle ⟨hin.1.2, hin.2.2⟩⟩

end Sited

end Lowering

/-! ## Programs -/

/-- A variable or parameter of a function lies in the frame of that function. -/
theorem Layouting.Furnished.access {layout : Layout} {around : List Head} {head : Head}
    {body : Option Expr} {f : Frame} (hf : Furnished layout around head body f) {d : DeclId}
    (hd : d ∈ (Item.function around head body).vars.map (·.1)) :
    ∃ place, layout.accesses[d]? = some (.relative place around.length) ∧
      (8 ≤ place.toInt ∧ place.toInt ≤ head.bytes ∨
        -f.locals.toInt ≤ place.toInt ∧ place.toInt + 8 ≤ 0) := by
  rw [Item.map_vars, List.mem_append] at hd
  rcases hd with hd | hd
  · obtain ⟨q, hq, rfl⟩ := List.mem_map.mp hd
    obtain ⟨place, hplace, hbounds⟩ := hf.params q hq
    exact ⟨place, hplace, Or.inl hbounds⟩
  · obtain ⟨v, hv, rfl⟩ := List.mem_map.mp hd
    obtain ⟨e, he, hv⟩ := List.mem_flatMap.mp hv
    obtain ⟨place, hplace, hbounds⟩ := (hf.fits e he).locals v hv
    exact ⟨place, hplace, Or.inr hbounds⟩

namespace Typed.Program

/-- Declarations and nodes have numbers of their own, parameters and variables take a word at least,
functions use what is in sight, and what they assign to are variables and parameters. -/
structure Lexical (p : Program) : Prop extends p.Spaced, p.Numbered where
  nodes : (Lowering.ids (Decl.listThroughout p.decls)).Nodup
  sight : p.isLexical
  assigns : p.items.all (·.assigns Expr.isName)

section Lexical

variable {p : Program} {s₀ s : Session} {c : Compiled} {around around' : List Head}
  {head head' : Head} {body body' : Option Expr} {f f' : Frame}

/-- In a well-named program the label of a frame tells the function it belongs to. -/
theorem item_of_label (hw : p.WellNamed) (h : p.compile s₀ = .ok c s)
    (hi : Item.function around head body ∈ p.items)
    (hi' : Item.function around' head' body' ∈ p.items)
    (hf : c.layout.frames[head.id]? = some f) (hf' : c.layout.frames[head'.id]? = some f')
    (hl : f.label = f'.label) :
    Item.function around head body = Item.function around' head' body' :=
  item_unique hw.ids hi hi' ((compile_distinct h hw).inj hf hf' hl)

/-- No function with a body has the label of allocation or release. -/
theorem provided (hw : p.WellNamed) (h : p.compile s₀ = .ok c s) :
    Lowering.Provided ⟨p, c.layout, head :: around, f⟩ s.names := by
  intro op l hop hl
  refine ⟨Nat.succ_pos _, fun around' head' body' f' hi hf hlabel => ?_⟩
  have hbody : ∃ b, (p.bodies c.layout)[l]? = some b :=
    Program.exists_bodies_iff.mpr ⟨(head', body'), (Program.items_closed hi).2, f', hf, hlabel⟩
  rw [bodies_runtime hw (compile_distinct h hw) hop hl] at hbody
  obtain ⟨b, hb⟩ := hbody
  cases hb

variable (hp : p.Lexical) (hw : p.WellNamed) (h : p.compile s₀ = .ok c s)
  (hi : Item.function around head body ∈ p.items)
  (hf : Layouting.Furnished c.layout around head body f)

include hp hi

/-- The functions around one that is in sight are around the caller, or are the caller. -/
theorem Lexical.around_eq_drop (hi' : Item.function around' head' body' ∈ p.items)
    (hs : around'.map (·.id) <:+ (head :: around).map (·.id)) :
    around' = (head :: around).drop (around.length + 1 - around'.length) := by
  cases around' with
  | nil => simp
  | cons parent rest =>
    obtain ⟨b, hb⟩ := item_around hi' (List.suffix_cons head' (parent :: rest))
    exact List.suffix_iff_eq_drop.mp (suffix_of_nesting hp.functions hi hb hs)

include h

theorem Lexical.furnished : ∃ f, Layouting.Furnished c.layout around head body f := by
  obtain ⟨s₁, s₂, hlayout, -⟩ := Program.compile_ok h
  exact Layouting.layout_furnished hlayout hp.toSpaced hp.functions hi

theorem Lexical.finds_name (hdepth : f.depth = around.length) {node : Node} {d : DeclId}
    (hd : p.sees ((head :: around).map (·.id)) d) :
    Nest.Finds ⟨p, c.layout, head :: around, f⟩ (.name node d) := by
  intro offset depth hacc
  obtain ⟨i, hmem, hsees⟩ := List.any_eq_true.mp hd
  rw [Bool.and_eq_true, List.contains_iff_mem, List.isSuffixOf_iff_suffix] at hsees
  obtain ⟨hvar, hsuffix⟩ := hsees
  cases i with
  | var v =>
    obtain ⟨s₁, s₂, hlayout, -⟩ := Program.compile_ok h
    obtain ⟨l, n, init, habs⟩ := Layouting.layout_addressed hlayout hp.toSpaced hmem
    obtain rfl : d = v.id := List.mem_singleton.mp hvar
    cases hacc.symm.trans habs
  | function around' head' body' =>
    obtain ⟨f', hf'⟩ := hp.furnished h hmem
    obtain ⟨place, hplace, hbounds⟩ := hf'.access hvar
    cases hacc.symm.trans hplace
    have hdrop := List.suffix_iff_eq_drop.mp
      (suffix_of_nesting hp.functions hi hmem hsuffix)
    refine ⟨head', f', ?_, hf'.frame, hbounds⟩
    have hfirst := congrArg (·[0]?) hdrop
    simpa [List.getElem?_drop, hdepth] using hfirst.symm

include hw hf

/-- A function in sight is called as it has to be. -/
theorem Lexical.finds_call {node : Node} {g : DeclId} {args : List Expr}
    (hroom : (Expr.call node g args).room ≤ f.arguments.toInt)
    (hcalls : p.calls ((head :: around).map (·.id)) g args) :
    Nest.Finds ⟨p, c.layout, head :: around, f⟩ (.call node g args) := by
  obtain ⟨i, hmem, hcall⟩ := List.any_eq_true.mp hcalls
  cases i with
  | var v => cases hcall
  | function around' head' body' =>
    simp only [Bool.and_eq_true, beq_iff_eq, List.isSuffixOf_iff_suffix] at hcall
    obtain ⟨⟨rfl, hsuffix⟩, hsizes⟩ := hcall
    obtain ⟨f', hf'⟩ := hp.furnished h hmem
    have hdrop := hp.around_eq_drop hi hmem hsuffix
    have hbytes : head'.bytes = (args.map (·.ty.bytes)).sum :=
      Ty.sum_bytes_congr hsizes.symm
    refine ⟨fun target htarget => ?_, fun a ha n hn => ?_, hroom⟩
    · obtain rfl : f' = target := Option.some.inj (hf'.frame.symm.trans htarget)
      refine ⟨?_, fun around'' head'' body'' f'' hi'' hf'' hl => ?_⟩
      · simp only [List.length_cons, hf.depth, hf'.depth]
        split <;> omega
      · cases item_of_label hw h hmem hi'' hf'.frame hf'' hl.symm
        refine ⟨?_, ?_⟩
        · rw [hbytes]
          exact hroom
        · rw [hf'.depth, hf.depth]
          split
          · next hnil => exact Or.inl (List.length_eq_zero_iff.mp hnil)
          · exact Or.inr hdrop
    · -- an argument has the size of a parameter
      obtain ⟨q, hq, hsize⟩ := List.mem_map.mp (hsizes ▸ List.mem_map_of_mem ha)
      exact hp.toSpaced.size hmem (v := (q.id, q.ty))
        (List.mem_append_left _ (List.mem_map.mpr ⟨q, hq, rfl⟩)) n (hsize.trans hn)

/-- What a function uses is where its code looks for it. -/
theorem Lexical.finds {e : Expr} (he : e ∈ (Item.function around head body).exprs) :
    Nest.Finds ⟨p, c.layout, head :: around, f⟩ e := by
  have hsight : e.inSight p ((head :: around).map (·.id)) :=
    List.all_eq_true.mp (List.all_eq_true.mp hp.sight _ hi) e he
  have hroom := (hf.fits e he).room
  cases e with
  | name node d => exact hp.finds_name h hi hf.depth hsight
  | call node g args => exact hp.finds_call hw h hi hf hroom hsight
  | unary node op a =>
    cases op with
    | new | del => exact hroom
    | not | plus | minus | addressOf => trivial
  | atom | index | field | binary | deref | cast | block | scope => trivial

end Lexical

/-- The code of a function's body calls and stores as the function's place in the program has
it. -/
theorem Lexical.sited {p : Program} (hp : p.Lexical) (hw : p.WellNamed) {s₀ s : Session}
    {c : Compiled} (h : p.compile s₀ = .ok c s) {around : List Head} {head : Head} {e : Expr}
    {f : Frame} (hi : Item.function around head (some e) ∈ p.items)
    (hf : Layouting.Furnished c.layout around head (some e) f) {value : Ir.Expr}
    (hvalue : c.code.exprs[e.id]? = some value) :
    value.Sited ⟨p, c.layout, head :: around, f⟩ := by
  obtain ⟨s₁, s₂, -, hlower, hchunks⟩ := Program.compile_ok h
  obtain ⟨⟨frame, ir, t, t', r, r', hframe, hir, hle, hent⟩, -⟩ :=
    ((Lowering.functions_lowers hlower).fills hp.nodes).bodies _ (items_closed hi).2
  obtain rfl : f = frame := Option.some.inj (hf.frame.symm.trans hframe)
  obtain rfl : value = ir := Option.some.inj (hvalue.symm.trans hent)
  refine (Lowering.expr_lowers hir).sited rfl rfl (provided hw h)
    (Names.le_trans hle (Program.chunksOf hchunks).names) ⟨fun a ha => hp.finds hw h hi hf ?_, ?_⟩
  · simpa [Item.exprs] using ha
  · exact List.all_eq_true.mp hp.assigns _ hi

end Typed.Program

end MmixBackend
