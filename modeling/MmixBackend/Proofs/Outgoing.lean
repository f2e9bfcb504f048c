import MmixBackend.Proofs.Linkage
import MmixBackend.Proofs.Places

/-!
# Stores of arguments

A call stores the static link and the arguments upward from the stack pointer, a word each, at
offsets that lowering computes from the sizes of the arguments.  The area for them is as large as
the largest call in the body needs by those sizes, so the last store of a call stays inside when its
argument has bytes, and then all stores before it do.

An argument without any bytes is stored all the same.  As the last one, it is stored at the end of
what its call needs, and so outside unless another call makes the area larger.
-/

namespace MmixBackend

open Typed Build

/-! ## Calls in intermediate code -/

namespace Ir

mutual

/-- The offsets of each call in an expression, a call before those in its arguments. -/
def Expr.outgoing : Expr → List (List Word)
  | .const _ | .name _ | .temp _ => []
  | .mem a => a.outgoing
  | .binary _ l r => l.outgoing ++ r.outgoing
  | .unary _ e => e.outgoing
  | .call _ offsets args => offsets :: Expr.listOutgoing args
  | .after s e => s.outgoing ++ e.outgoing

def Expr.listOutgoing : List Expr → List (List Word)
  | [] => []
  | e :: es => e.outgoing ++ Expr.listOutgoing es

/-- The offsets of each call in a statement. -/
def Stmt.outgoing : Stmt → List (List Word)
  | .move dst src => dst.outgoing ++ src.outgoing
  | .eval e => e.outgoing
  | .branch c _ _ => c.outgoing
  | .jump _ | .label _ => []
  | .seq ss => Stmt.listOutgoing ss

def Stmt.listOutgoing : List Stmt → List (List Word)
  | [] => []
  | s :: ss => s.outgoing ++ Stmt.listOutgoing ss

end

@[simp] theorem Stmt.listOutgoing_append (ss ts : List Stmt) :
    Stmt.listOutgoing (ss ++ ts) = Stmt.listOutgoing ss ++ Stmt.listOutgoing ts := by
  induction ss with
  | nil => rfl
  | cons s ss ih => simp only [List.cons_append, Stmt.listOutgoing, ih, List.append_assoc]

end Ir

/-! ## Calls in typed programs -/

namespace Typed

/-- Where a call stores the static link and its arguments. -/
def Expr.stores? : Expr → Option (List Int)
  | .call _ _ args => some (0 :: (Span.upFrom 8 (args.map (·.ty.bytes))).map (·.start))
  | .unary _ .new _ | .unary _ .del _ => some [0, 8]
  | _ => none

/-- The expression is a call, of a function or for memory. -/
def Expr.isCall (e : Expr) : Bool := e.stores?.isSome

/-- The expression is a call whose last argument has no bytes. -/
def Expr.endsEmpty : Expr → Bool
  | .call _ _ args => args.getLast?.any (·.ty.bytes == 0)
  | _ => false

theorem Expr.within_of_mem_cons {x e : Expr} {rest : List Expr} (he : e.within = e :: rest)
    (h : x ∈ e.within) (hrest : x ∈ rest → x.within ⊆ rest) : x.within ⊆ e.within := by
  rw [he] at h
  rcases List.mem_cons.mp h with rfl | h
  · exact List.Subset.refl _
  · rw [he]
    exact List.subset_cons_of_subset _ (hrest h)

mutual

/-- The parts of a part of an expression are parts of it. -/
theorem Expr.within_trans {x : Expr} : ∀ e : Expr, x ∈ e.within → x.within ⊆ e.within
  | .atom .., h | .name .., h => Expr.within_of_mem_cons rfl h (by simp)
  | .index _ a b, h | .binary _ _ a b, h => Expr.within_of_mem_cons rfl h fun h => by
    rcases List.mem_append.mp h with h | h
    · exact List.subset_append_of_subset_left _ (Expr.within_trans a h)
    · exact List.subset_append_of_subset_right _ (Expr.within_trans b h)
  | .field _ a _, h | .unary _ _ a, h | .deref _ a, h | .cast _ _ a, h | .scope _ a _, h =>
    Expr.within_of_mem_cons rfl h (Expr.within_trans a)
  | .call _ _ args, h => Expr.within_of_mem_cons rfl h (Expr.listWithin_trans args)
  | .block _ body, h => Expr.within_of_mem_cons rfl h (Stmt.listWithin_trans body)

theorem Expr.listWithin_trans {x : Expr} :
    ∀ es : List Expr, x ∈ Expr.listWithin es → x.within ⊆ Expr.listWithin es
  | [], h => by cases h
  | e :: es, h => by
    rw [Expr.listWithin] at h ⊢
    rcases List.mem_append.mp h with h | h
    · exact List.subset_append_of_subset_left _ (Expr.within_trans e h)
    · exact List.subset_append_of_subset_right _ (Expr.listWithin_trans es h)

theorem Stmt.within_trans {x : Expr} : ∀ st : Stmt, x ∈ st.within → x.within ⊆ st.within
  | .assign _ dst src, h => by
    rw [Stmt.within] at h ⊢
    rcases List.mem_append.mp h with h | h
    · exact List.subset_append_of_subset_left _ (Expr.within_trans dst h)
    · exact List.subset_append_of_subset_right _ (Expr.within_trans src h)
  | .eval _ e, h => by
    rw [Stmt.within] at h ⊢
    exact Expr.within_trans e h
  | .cond _ test yes no, h => by
    rw [Stmt.within] at h ⊢
    rcases List.mem_append.mp h with h | h
    · refine List.subset_append_of_subset_left _ ?_
      rcases List.mem_append.mp h with h | h
      · exact List.subset_append_of_subset_left _ (Expr.within_trans test h)
      · exact List.subset_append_of_subset_right _ (Stmt.listWithin_trans yes h)
    · exact List.subset_append_of_subset_right _ (Stmt.listWithin_trans no h)
  | .loop _ test body, h => by
    rw [Stmt.within] at h ⊢
    rcases List.mem_append.mp h with h | h
    · exact List.subset_append_of_subset_left _ (Expr.within_trans test h)
    · exact List.subset_append_of_subset_right _ (Stmt.listWithin_trans body h)

theorem Stmt.listWithin_trans {x : Expr} :
    ∀ ss : List Stmt, x ∈ Stmt.listWithin ss → x.within ⊆ Stmt.listWithin ss
  | [], h => by cases h
  | st :: ss, h => by
    rw [Stmt.listWithin] at h ⊢
    rcases List.mem_append.mp h with h | h
    · exact List.subset_append_of_subset_left _ (Stmt.within_trans st h)
    · exact List.subset_append_of_subset_right _ (Stmt.listWithin_trans ss h)

end

theorem Expr.mem_within_self (e : Expr) : e ∈ e.within := by
  cases e <;> exact List.mem_cons_self

theorem Expr.subset_listWithin (es : List Expr) : es ⊆ Expr.listWithin es := by
  induction es with
  | nil => exact List.Subset.refl _
  | cons e es ih =>
    rw [Expr.listWithin]
    refine List.cons_subset.mpr ⟨List.mem_append_left _ e.mem_within_self, ?_⟩
    exact List.subset_append_of_subset_right _ ih

end Typed

/-! ## Lowering -/

namespace Lowering

variable {scope : Scope}

@[simp] theorem outgoing_follow (n : Nat) (e : Ir.Expr) : (follow n e).outgoing = e.outgoing := by
  induction n generalizing e with
  | zero => rfl
  | succ n ih => rw [follow, ih, Ir.Expr.outgoing]

theorem Lowers.starts {args : List Expr} {offset : Word} {os : List Word} {vs : List Ir.Expr}
    {t t' : Lowered} {s s' : Session}
    (h : Lowers scope (.arguments offset args os vs) t s t' s') :
    os.map Int64.toInt = (Span.upFrom offset.toInt (args.map (·.ty.bytes))).map (·.start) := by
  induction args generalizing offset os vs t s with
  | nil =>
    cases h
    rfl
  | cons a as ih =>
    cases h with
    | argument _ hn hnext h₂ =>
      rw [List.map_cons, ih h₂, Word.toInt_checkedAdd hnext, ← Ty.bytes_eq hn]
      rfl

/-- Where the calls in the code of a part store. -/
@[simp] def Part.outgoing : Part → List (List Word)
  | .code _ ir | .expr _ ir => ir.outgoing
  | .arguments _ _ _ vs => Ir.Expr.listOutgoing vs
  | .block _ xs v => Ir.Stmt.listOutgoing xs ++ v.outgoing
  | .stmt _ x => x.outgoing
  | .stmts _ xs => Ir.Stmt.listOutgoing xs
  | .functions _ => []

/-- Where the calls of a part are to store. -/
@[simp] def Part.stores : Part → List (List Int)
  | .code e _ | .expr e _ => e.within.filterMap Expr.stores?
  | .arguments _ args _ _ => (Expr.listWithin args).filterMap Expr.stores?
  | .block ss _ _ | .stmts ss _ => (Stmt.listWithin ss).filterMap Expr.stores?
  | .stmt st _ => st.within.filterMap Expr.stores?
  | .functions _ => []

/-- The calls in the intermediate code of a part are those in the part, each with its stores. -/
theorem Lowers.outgoing {p : Part} {t t' : Lowered} {s s' : Session}
    (h : Lowers scope p t s t' s') : p.outgoing.map (·.map Int64.toInt) = p.stores := by
  induction h with
  | entered _ _ ih | eval _ ih => exact ih
  | leaf h =>
    cases h <;> simp [wordAt, Ir.Expr.outgoing, Expr.within, Expr.stores?]
  | wrap h _ ih =>
    cases h <;> simpa [wordAt, Ir.Expr.outgoing, Expr.within, List.filterMap_cons,
      Expr.stores?] using ih
  | join h _ _ ih₁ ih₂ =>
    cases h <;> simp_all [Ir.Expr.outgoing, Expr.within, List.filterMap_cons, Expr.stores?]
  | @runtime _ node op e _ _ _ _ _ _ hop _ _ ih =>
    have hstores : (Expr.unary node op e).stores? = some [0, 8] := by
      rcases hop with rfl | rfl <;> rfl
    simp only [Part.outgoing, Part.stores] at ih
    simp only [Part.outgoing, Part.stores, Ir.Expr.outgoing, Ir.Expr.listOutgoing,
      List.nil_append, List.append_nil, List.map_cons, Expr.within, List.filterMap_cons, hstores,
      ih]
    rfl
  | call _ _ _ h₁ ih =>
    simp only [Part.outgoing, Part.stores] at ih
    simp only [Part.outgoing, Part.stores, Ir.Expr.outgoing, Ir.Expr.listOutgoing,
      outgoing_follow, List.nil_append, List.map_cons, Expr.within, List.filterMap_cons,
      Expr.stores?, h₁.starts, ih]
    rfl
  | block _ ih | scope _ _ _ ih =>
    simpa [Ir.Expr.outgoing, Ir.Stmt.outgoing, Expr.within, List.filterMap_cons,
      Expr.stores?] using ih
  | noArguments | noResult | noStmts | noFunctions => rfl
  | argument _ _ _ _ ih₁ ih₂ | stmt _ _ ih₁ ih₂ | next _ _ _ ih₁ ih₂ | assign _ _ ih₁ ih₂ =>
    simp only [Part.outgoing, Part.stores] at ih₁ ih₂
    simp only [Part.outgoing, Part.stores, Ir.Expr.listOutgoing, Ir.Stmt.listOutgoing,
      Ir.Stmt.outgoing, List.append_assoc, List.map_append, Expr.listWithin, Stmt.listWithin,
      Stmt.within, List.filterMap_append, ← ih₁, ← ih₂]
  | result _ ih => simpa [Ir.Stmt.listOutgoing, Stmt.listWithin, Stmt.within] using ih
  | cond _ _ _ hx ih₁ ih₂ ih₃ =>
    simp only [Part.outgoing, Part.stores] at ih₁ ih₂ ih₃
    simp only [hx, Part.outgoing, Part.stores, Ir.Stmt.outgoing, Ir.Stmt.listOutgoing,
      Ir.Stmt.listOutgoing_append, List.append_nil, List.map_append, Stmt.within,
      List.filterMap_append, ih₁, ih₂, ih₃]
  | loop _ _ hx ih₁ ih₂ =>
    simp only [Part.outgoing, Part.stores] at ih₁ ih₂
    simp only [hx, Part.outgoing, Part.stores, Ir.Stmt.outgoing, Ir.Stmt.listOutgoing,
      Ir.Stmt.listOutgoing_append, List.append_nil, List.nil_append, List.map_append, Stmt.within,
      List.filterMap_append, ih₁, ih₂]
  | var | foreign | fn => rfl

end Lowering

/-! ## Room for stores -/

namespace Span

/-- What starts in a row of stretches lies between its ends. -/
theorem starts_upFrom {ns : List Int} (h : ∀ n ∈ ns, 0 ≤ n) :
    ∀ low, ∀ x ∈ (upFrom low ns).map (·.start), low ≤ x ∧ x ≤ low + ns.sum := by
  induction ns with
  | nil =>
    intro low x hx
    cases hx
  | cons n ns ih =>
    intro low x hx
    obtain ⟨hn, hns, hsum⟩ := sum_nonneg_of_cons h
    rw [List.sum_cons]
    rcases List.mem_cons.mp hx with rfl | hx
    · omega
    · have := ih hns (low + n) x hx
      omega

/-- In a row of stretches of whole words, there is a word left from each start on unless the last
stretch is empty. -/
theorem words_upFrom_iff {ns : List Int} (h : ∀ n ∈ ns, 0 ≤ n ∧ (8 : Int) ∣ n) :
    ∀ {low high : Int}, low + ns.sum ≤ high →
      ((∀ x ∈ (upFrom low ns).map (·.start), x + 8 ≤ high) ↔
        (ns.getLast? = some 0 → low + ns.sum + 8 ≤ high)) := by
  induction ns with
  | nil => simp [upFrom]
  | cons n ns ih =>
    intro low high hle
    obtain ⟨⟨hn, hdvd⟩, hns⟩ := List.forall_mem_cons.mp h
    rw [upFrom, List.map_cons, List.forall_mem_cons]
    cases ns with
    | nil =>
      simp only [upFrom, List.map_nil, List.not_mem_nil, false_implies, implies_true, and_true,
        List.getLast?_singleton, Option.some.injEq, List.sum_cons, List.sum_nil] at hle ⊢
      omega
    | cons m ns =>
      rw [List.sum_cons, ← Int.add_assoc] at hle ⊢
      rw [and_iff_right_of_imp, ih hns hle, List.getLast?_cons_cons]
      -- the second start is not below the first
      intro hrest
      have hsecond := hrest (low + n) List.mem_cons_self
      show low + 8 ≤ high
      omega

end Span

namespace Typed

/-- Where a call stores is in the bytes it needs or at their end, and with a word left unless the
last argument has no bytes. -/
theorem Expr.stores_room {e : Expr} {stores : List Int} {area : Int}
    (he : ∀ x ∈ e.within, x.ty.Counted) (hstores : e.stores? = some stores)
    (harea : e.room ≤ area) :
    (∀ x ∈ stores, 0 ≤ x ∧ x ≤ area) ∧
      ((∀ x ∈ stores, x + 8 ≤ area) ↔ (e.endsEmpty → e.room + 8 ≤ area)) := by
  cases e with
  | call node f args =>
    have hns : ∀ n ∈ args.map (·.ty.bytes), 0 ≤ n ∧ (8 : Int) ∣ n := by
      intro n hn
      obtain ⟨a, ha, rfl⟩ := List.mem_map.mp hn
      have hcounted := he a (List.mem_cons_of_mem _ (Expr.subset_listWithin args ha))
      exact ⟨hcounted.bytes_nonneg, Ty.word_dvd_bytes _⟩
    have hnonneg : ∀ n ∈ args.map (·.ty.bytes), 0 ≤ n := fun n hn => (hns n hn).1
    have hsum := List.sum_nonneg hnonneg
    have hempty : (Expr.call node f args).endsEmpty ↔
        (args.map (·.ty.bytes)).getLast? = some 0 := by
      rw [Expr.endsEmpty, List.getLast?_map, Option.any_eq_true, Option.map_eq_some_iff]
      simp
    obtain rfl := Option.some.inj hstores
    rw [Expr.room] at harea ⊢
    rw [List.forall_mem_cons, List.forall_mem_cons, Span.words_upFrom_iff hns harea, hempty]
    refine ⟨⟨by omega, fun x hx => ?_⟩, and_iff_right (by omega)⟩
    have := Span.starts_upFrom hnonneg 8 x hx
    omega
  | unary node op a =>
    cases op with
    | new | del =>
      obtain rfl := Option.some.inj hstores
      rw [Expr.room] at harea ⊢
      simp only [List.forall_mem_cons, List.not_mem_nil, false_implies, implies_true, and_true,
        Expr.endsEmpty, Bool.false_eq_true, iff_true]
      omega
    | plus | minus | not | addressOf => cases hstores
  | atom | name | index | field | binary | deref | cast | block | scope => cases hstores

end Typed

/-- Lists that go together by what is listed of one of them. -/
theorem forall₂_of_filterMap {α β γ : Type} {f : α → Option γ} {g : β → γ} {R : β → α → Prop}
    {as : List α} : ∀ {bs : List β}, bs.map g = as.filterMap f →
      (∀ a ∈ as, ∀ b, f a = some (g b) → R b a) →
      List.Forall₂ R bs (as.filter fun a => (f a).isSome) := by
  induction as with
  | nil =>
    intro bs h _
    rw [List.filterMap_nil, List.map_eq_nil_iff] at h
    rw [h]
    exact .nil
  | cons a as ih =>
    intro bs h hR
    obtain ⟨hfirst, hrest⟩ := List.forall_mem_cons.mp hR
    cases ha : f a with
    | none =>
      rw [List.filterMap_cons, ha] at h
      rw [List.filter_cons, if_neg (by simp [ha])]
      exact ih h hrest
    | some c =>
      rw [List.filterMap_cons, ha] at h
      obtain ⟨b, bs, rfl, hb, h⟩ := List.map_eq_cons_iff.mp h
      rw [List.filter_cons, if_pos (by simp [ha])]
      exact .cons (hfirst b (hb ▸ ha)) (ih h hrest)

namespace Typed.Program

variable {p : Program} {s s' : Session} {l : Layout} {around : List Head} {head : Head}
  {body : Expr}

/-- The calls in the intermediate code of a function's body are, in order, those in the body.  No
store of an argument lies below the area for arguments or beyond its end, and all stores of a call
are inside exactly if its last argument has bytes or the area has a word more than the call
needs. -/
theorem stores_inside_iff (h : p.layout s = .ok l s') (hids : (p.heads.map (·.id)).Nodup)
    (hc : ∀ ty ∈ p.types, ty.Counted) (hi : Item.function around head (some body) ∈ p.items) :
    ∃ f, l.frames[head.id]? = some f ∧
      ∀ {t t' : Lowered} {s₁ s₂ : Session} {ir : Ir.Expr},
        Lowering.expr ⟨l, some f⟩ body t s₁ = .ok (ir, t') s₂ →
        List.Forall₂ (fun offsets e =>
          (∀ o ∈ offsets, 0 ≤ o.toInt ∧ o.toInt ≤ f.arguments.toInt) ∧
            ((∀ o ∈ offsets, o.toInt + 8 ≤ f.arguments.toInt) ↔
              (e.endsEmpty → e.room + 8 ≤ f.arguments.toInt)))
          ir.outgoing (body.within.filter Expr.isCall) := by
  obtain ⟨f, hf⟩ := Layouting.layout_sized h hids hi
  refine ⟨f, hf.frame, fun hlower => ?_⟩
  refine forall₂_of_filterMap (Lowering.expr_lowers hlower).outgoing fun e he offsets hstores => ?_
  have hcounted : ∀ x ∈ e.within, x.ty.Counted := by
    intro x hx
    refine hc x.ty (List.mem_flatMap.mpr ⟨_, hi, ?_⟩)
    refine List.mem_append_right _ (List.mem_cons_of_mem _ (List.mem_flatMap.mpr ⟨x, ?_, ?_⟩))
    · simpa [Item.exprs] using Expr.within_trans body he hx
    · exact ty_mem_types x
  have hroom := hf.room e (by simpa [Item.exprs] using he)
  obtain ⟨hbounds, hinside⟩ := Expr.stores_room hcounted hstores hroom
  simp only [List.forall_mem_map] at hbounds hinside
  exact ⟨hbounds, hinside⟩

/-- `g(new 8, f(a))` for an array `a` without elements. -/
def roomyBody : Expr :=
  .scope (.value 0)
    (.call (.value 1) ⟨2⟩ [
      .unary ⟨⟨2⟩, .ptr .int, false, {}⟩ .new (.atom (.value 3) (.int 8)),
      .call (.value 4) ⟨0⟩ [.name ⟨⟨5⟩, .array .int 0, true, {}⟩ ⟨6⟩]])
    [.var ⟨⟨6⟩, "a", .array .int 0, {}⟩]

/-- The call of `f` stores past what it needs, into room that the call around it makes. -/
def roomy : Program where
  decls := [.foreign ⟨⟨0⟩, "f", [⟨⟨1⟩, "a", .array .int 0⟩], .int, {}⟩,
    .foreign ⟨⟨2⟩, "g", [⟨⟨3⟩, "p", .ptr .int⟩, ⟨⟨4⟩, "n", .int⟩], .int, {}⟩,
    .fn ⟨⟨5⟩, "main", [], .int, {}⟩ roomyBody]

theorem stores_inside_roomy :
    (roomy.heads.map (·.id)).Nodup ∧ (∀ ty ∈ roomy.types, ty.Counted) ∧
      ∃ l s, roomy.layout {} = .ok l s ∧ ∃ f, l.frames[(⟨5⟩ : DeclId)]? = some f ∧
        ∃ r s', Lowering.expr ⟨l, some f⟩ roomyBody {} s = .ok r s' ∧
          r.1.outgoing = [[0, 8, 16], [0, 8], [0, 8]] ∧
          ∀ offsets ∈ r.1.outgoing, ∀ o ∈ offsets, o.toInt + 8 ≤ f.arguments.toInt := by
  have hids : (roomy.heads.map (·.id)).Nodup := by decide
  have hc : ∀ ty ∈ roomy.types, ty.Counted := by decide
  have hrun : ∃ l s, roomy.layout {} = .ok l s ∧ (l.frames[(⟨5⟩ : DeclId)]?).any fun f =>
      f.arguments == 24 && decide (∃ r s', Lowering.expr ⟨l, some f⟩ roomyBody {} s = .ok r s' ∧
        r.1.outgoing = [[0, 8, 16], [0, 8], [0, 8]]) := by
    decide +kernel
  obtain ⟨l, s, hl, hrun⟩ := hrun
  have hi : Item.function [] ⟨⟨5⟩, "main", [], .int, {}⟩ (some roomyBody) ∈ roomy.items :=
    .tail _ (.tail _ (.head _))
  obtain ⟨f, hf, hall⟩ := stores_inside_iff hl hids hc hi
  rw [hf, Option.any_some, Bool.and_eq_true, beq_iff_eq, decide_eq_true_eq] at hrun
  obtain ⟨harguments, r, s', hr, houtgoing⟩ := hrun
  refine ⟨hids, hc, l, s, hl, f, hf, r, s', hr, houtgoing, fun offsets hoffsets => ?_⟩
  have hroom : ∀ e ∈ roomyBody.within.filter Expr.isCall, e.endsEmpty → e.room + 8 ≤ 24 := by
    decide
  obtain ⟨e, he, -, hinside⟩ := exists_rel_of_mem (hall hr) offsets hoffsets
  rw [hinside, harguments]
  exact hroom e he

/-- `f(a)` for an array `a` without elements. -/
def hollowBody : Expr :=
  .scope (.value 4)
    (.call (.value 3) ⟨1⟩ [.name ⟨⟨2⟩, .array .int 0, true, {}⟩ ⟨4⟩])
    [.var ⟨⟨4⟩, "a", .array .int 0, {}⟩]

def hollow : Program where
  decls := [.fn ⟨⟨1⟩, "f", [⟨⟨2⟩, "a", .array .int 0⟩], .int, {}⟩
      (.atom (.value 1) (.int 7)),
    .fn ⟨⟨3⟩, "main", [], .int, {}⟩ hollowBody]

/-- The argument is stored right behind the area for arguments. -/
theorem stores_outside_hollow :
    (hollow.heads.map (·.id)).Nodup ∧ (∀ ty ∈ hollow.types, ty.Counted) ∧
      Item.function [] ⟨⟨3⟩, "main", [], .int, {}⟩ (some hollowBody) ∈ hollow.items ∧
      ∃ l s, hollow.layout {} = .ok l s ∧ ∃ f, l.frames[(⟨3⟩ : DeclId)]? = some f ∧
        ∃ r s', Lowering.expr ⟨l, some f⟩ hollowBody {} s = .ok r s' ∧
          ∃ offsets ∈ r.1.outgoing, ∃ o ∈ offsets, ¬ o.toInt + 8 ≤ f.arguments.toInt := by
  refine ⟨by decide, by decide, .tail _ (.head _), ?_⟩
  have hrun : ∃ l s, hollow.layout {} = .ok l s ∧ (l.frames[(⟨3⟩ : DeclId)]?).any fun f =>
      decide (∃ r s', Lowering.expr ⟨l, some f⟩ hollowBody {} s = .ok r s' ∧
        ∃ offsets ∈ r.1.outgoing, ∃ o ∈ offsets, ¬ o.toInt + 8 ≤ f.arguments.toInt) := by
    decide +kernel
  obtain ⟨l, s, hl, hrun⟩ := hrun
  obtain ⟨f, hf, hrun⟩ := (Option.any_eq_true _ _).mp hrun
  exact ⟨l, s, hl, f, hf, of_decide_eq_true hrun⟩

end Typed.Program

end MmixBackend
