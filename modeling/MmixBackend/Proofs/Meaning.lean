import MmixBackend.Machine.Memory
import MmixBackend.Proofs.Canonical

/-!
# Canonical code has the meaning of the tree it was made from

A tree is evaluated directly: operands and arguments from left to right, the statement of an
`after` before its expression, the address of a store before its value.  What a call does is left
open: any function from the label, the offsets and the values of the arguments, memory and the
world to a result, memory and a world.

The code that `Stmt.canonize` makes, run statement by statement, ends with the same memory, the
same world and the same values of the temporaries that there were before.  The temporaries that
are drawn hold values between the statements in which they are made and used, so the induction
says two things about the code of an expression: it and the tree agree on the old temporaries, and
it leaves alone what was drawn before it.
-/

namespace MmixBackend.Ir

open Machine (Memory)

/-! ## Direct evaluation -/

/-- What labels and calls mean. -/
structure Interpretation (W : Type) where
  /-- The address of a label. -/
  address : Label → Word
  /-- The result of a call and what it leaves, from its label, the offsets of its arguments, their
  values, and what it finds. -/
  call : Label → List Word → List Word → Memory × W → Word × Memory × W

/-- What statements change. -/
structure Store (W : Type) where
  temps : Temp → Word
  memory : Memory
  world : W

namespace Store

variable {W : Type}

def set (σ : Store W) (t : Temp) (v : Word) : Store W :=
  { σ with temps := fun u => if u = t then v else σ.temps u }

def put (σ : Store W) (a v : Word) : Store W := { σ with memory := σ.memory.store a v }

/-- The result of a call, and the store with what the call left. -/
def call (σ : Store W) (I : Interpretation W) (l : Label) (offsets vs : List Word) :
    Word × Store W :=
  let (v, memory, world) := I.call l offsets vs (σ.memory, σ.world)
  (v, { σ with memory, world })

end Store

section Evaluation

variable {W : Type} (I : Interpretation W)

mutual

/-- The value of an expression, and the store after its effects. -/
def Expr.value : Expr → Store W → Word × Store W
  | .const v, σ => (v, σ)
  | .name l, σ => (I.address l, σ)
  | .temp t, σ => (σ.temps t, σ)
  | .mem addr, σ =>
    let (a, σ) := addr.value σ
    (σ.memory.load a, σ)
  | .binary op lhs rhs, σ =>
    let (x, σ) := lhs.value σ
    let (y, σ) := rhs.value σ
    (op.eval x y, σ)
  | .unary op e, σ =>
    let (v, σ) := e.value σ
    (op.eval v, σ)
  | .call l offsets args, σ =>
    let (vs, σ) := Expr.values args σ
    σ.call I l offsets vs
  | .after s e, σ => e.value (s.effect σ)

/-- The values of expressions from left to right. -/
def Expr.values : List Expr → Store W → List Word × Store W
  | [], σ => ([], σ)
  | e :: es, σ =>
    let (v, σ) := e.value σ
    let (vs, σ) := Expr.values es σ
    (v :: vs, σ)

/-- The store after a statement.  A statement that only control flow gives a meaning, or that moves
into what is neither a temporary nor memory, does nothing. -/
def Stmt.effect : Stmt → Store W → Store W
  | .move (.temp t) src, σ =>
    let (v, σ) := src.value σ
    σ.set t v
  | .move (.mem addr) src, σ =>
    let (a, σ) := addr.value σ
    let (v, σ) := src.value σ
    σ.put a v
  | .eval e, σ => (e.value σ).2
  | .seq ss, σ => Stmt.effects ss σ
  | .move .., σ | .branch .., σ | .jump _, σ | .label _, σ => σ

/-- The store after statements, one after the other. -/
def Stmt.effects : List Stmt → Store W → Store W
  | [], σ => σ
  | s :: ss, σ => Stmt.effects ss (s.effect σ)

end

@[simp] theorem Stmt.effects_append (ss ts : List Stmt) (σ : Store W) :
    Stmt.effects I (ss ++ ts) σ = Stmt.effects I ts (Stmt.effects I ss σ) := by
  induction ss generalizing σ with
  | nil => rfl
  | cons s ss ih => exact ih (s.effect I σ)

end Evaluation

/-! ## Trees that are evaluated in one line -/

mutual

/-- Nothing in the expression jumps or is jumped to, its moves are into temporaries and memory, and
its temporaries were handed out. -/
def Expr.Straight (n : Names) : Expr → Prop
  | .const _ | .name _ => True
  | .temp t => n.HasTemp t
  | .mem addr => addr.Straight n
  | .binary _ lhs rhs => lhs.Straight n ∧ rhs.Straight n
  | .unary _ e => e.Straight n
  | .call _ _ args => Expr.AllStraight n args
  | .after s e => s.Straight n ∧ e.Straight n

@[inherit_doc Expr.Straight]
def Expr.AllStraight (n : Names) : List Expr → Prop
  | [] => True
  | e :: es => e.Straight n ∧ Expr.AllStraight n es

/-- Nothing in the statement jumps or is jumped to, its moves are into temporaries and memory, and
its temporaries were handed out. -/
def Stmt.Straight (n : Names) : Stmt → Prop
  | .move (.temp t) src => n.HasTemp t ∧ src.Straight n
  | .move (.mem addr) src => addr.Straight n ∧ src.Straight n
  | .eval e => e.Straight n
  | .seq ss => Stmt.AllStraight n ss
  | .move .. | .branch .. | .jump _ | .label _ => False

@[inherit_doc Stmt.Straight]
def Stmt.AllStraight (n : Names) : List Stmt → Prop
  | [] => True
  | s :: ss => s.Straight n ∧ Stmt.AllStraight n ss

end

section Success

variable {n : Names}

mutual

theorem Expr.Straight.isMovable : ∀ {e : Expr}, e.Straight n → e.isMovable = true
  | .const _, _ | .name _, _ | .temp _, _ => rfl
  | .mem addr, h => Expr.Straight.isMovable (e := addr) h
  | .unary _ e, h => Expr.Straight.isMovable (e := e) h
  | .binary .., h => by simp [Expr.isMovable, h.1.isMovable, h.2.isMovable]
  | .call .., h => Expr.AllStraight.allMovable h
  | .after .., h => by simp [Expr.isMovable, h.1.isMovable, h.2.isMovable]

theorem Expr.AllStraight.allMovable :
    ∀ {es : List Expr}, Expr.AllStraight n es → Expr.allMovable es = true
  | [], _ => rfl
  | _ :: _, h => by
    simp [Expr.allMovable, h.1.isMovable, Expr.AllStraight.allMovable h.2]

theorem Stmt.Straight.isMovable : ∀ {st : Stmt}, st.Straight n → st.isMovable = true
  | .seq _, h => Stmt.AllStraight.allMovable h
  | .eval e, h => Expr.Straight.isMovable (e := e) h
  | .move (.mem _) _, h => by
    simp [Stmt.isMovable, Expr.isPlace, Expr.isMovable, h.1.isMovable, h.2.isMovable]
  | .move (.temp _) _, h => by
    simp [Stmt.isMovable, Expr.isPlace, Expr.isMovable, h.2.isMovable]

theorem Stmt.AllStraight.allMovable :
    ∀ {ss : List Stmt}, Stmt.AllStraight n ss → Stmt.allMovable ss = true
  | [], _ => rfl
  | _ :: _, h => by
    simp [Stmt.allMovable, h.1.isMovable, Stmt.AllStraight.allMovable h.2]

end

end Success

/-! ## The form of the code -/

section Form

variable {loc : Location}

@[simp] theorem isCanonical_append {code code' : List Stmt} :
    isCanonical (code ++ code') = (isCanonical code && isCanonical code') :=
  List.all_append

@[simp] theorem isCanonical_cons {st : Stmt} {code : List Stmt} :
    isCanonical (st :: code) = (st.isCanonical && isCanonical code) :=
  List.all_cons

@[simp] theorem isCanonical_nil : isCanonical [] = true := rfl

theorem Expr.isCanonical_set {v : Expr} (h : v.isValue) (t : Temp) :
    (Stmt.move (.temp t) v).isCanonical := by
  cases v with
  | mem | after => cases h
  | const | name | temp | binary | unary | call => exact h

theorem Stmt.isCanonical_store (a v : Temp) :
    (Stmt.move (.mem (.temp a)) (.temp v)).isCanonical := rfl

/-- Nothing is left of a tree but values, and of arguments but temporaries. -/
@[simp] def Tree.IsValued : Tree → Prop
  | .expr _ val => val.isValue
  | .args _ vals => vals.all Expr.isOperand
  | .operand .. | .stmt _ | .stmts _ => True

theorem Canonizes.isCanonical {t : Tree} {n m : Names} {code : List Stmt}
    (h : Canonizes t n code m) : Ir.isCanonical code ∧ t.IsValued := by
  induction h with
  | const | name | temp | noArgs => exact ⟨rfl, rfl⟩
  | label | jump | noStmts => exact ⟨rfl, trivial⟩
  | mem _ ih => simp [ih.1, Stmt.isCanonical, show Expr.isValue _ from ih.2, Expr.isValue]
  | operand _ ih => simp [ih.1, Expr.isCanonical_set ih.2]
  | unary _ ih | call _ ih | seq _ ih => exact ih
  | branch _ ih | eval _ ih => simp [ih.1, Stmt.isCanonical, show Expr.isValue _ from ih.2]
  | set _ ih => simp [ih.1, Expr.isCanonical_set (v := .temp _) rfl]
  | binary _ _ ih₁ ih₂ => simp [ih₁.1, ih₂.1, Expr.isValue, Expr.isOperand]
  | store _ _ ih₁ ih₂ => simp [ih₁.1, ih₂.1, Stmt.isCanonical_store]
  | after _ _ ih₁ ih₂ | next _ _ ih₁ ih₂ => simpa [ih₁.1] using ih₂
  | arg _ _ ih₁ ih₂ => simpa [ih₁.1, Expr.isOperand] using ih₂

theorem Stmt.isCanonical_canonize {st : Stmt} {s s' : Session} {code : List Stmt}
    (h : st.canonize loc s = .ok code s') : Ir.isCanonical code :=
  (Stmt.canonizes h).isCanonical.1

end Form

/-! ## Stores that agree -/

section Agreement

variable {W : Type} {I : Interpretation W} {n m : Names} {σ τ τ' τ'' : Store W} {t : Temp}
  {v : Word}

@[simp] theorem Store.set_temps_self : (σ.set t v).temps t = v := if_pos rfl

theorem Store.set_temps_of_ne {u : Temp} (h : u ≠ t) : (σ.set t v).temps u = σ.temps u :=
  if_neg h

@[simp] theorem Store.call_temps (l : Label) (offsets vs : List Word) :
    (σ.call I l offsets vs).2.temps = σ.temps := rfl

/-- The stores differ at most in temporaries that were not handed out. -/
structure Store.Agrees (n : Names) (σ τ : Store W) : Prop where
  memory : τ.memory = σ.memory
  world : τ.world = σ.world
  temps : ∀ t, n.HasTemp t → τ.temps t = σ.temps t

/-- What was drawn since `n`, up to `m`, is kept. -/
def Store.Keeps (n m : Names) (τ τ' : Store W) : Prop :=
  ∀ t, ¬ n.HasTemp t → m.HasTemp t → τ'.temps t = τ.temps t

theorem Store.Agrees.refl (n : Names) (σ : Store W) : σ.Agrees n σ := ⟨rfl, rfl, fun _ _ => rfl⟩

theorem Store.Keeps.refl (n m : Names) (τ : Store W) : τ.Keeps n m τ := fun _ _ _ => rfl

theorem Store.Keeps.trans {m' : Names} (h : τ.Keeps n m τ') (h' : τ'.Keeps n m' τ'')
    (hm : m ≤ m') : τ.Keeps n m τ'' := by
  intro t ht htm
  rw [h' t ht (Nat.lt_of_lt_of_le htm (Names.temps_le hm)), h t ht htm]

/-- A temporary that was not handed out may change. -/
theorem Store.Agrees.set_right (h : σ.Agrees n τ) (ht : ¬ n.HasTemp t) :
    σ.Agrees n (τ.set t v) := by
  refine ⟨h.memory, h.world, fun u hu => ?_⟩
  have hne : u ≠ t := fun heq => ht (heq ▸ hu)
  rw [Store.set_temps_of_ne hne]
  exact h.temps u hu

theorem Store.Agrees.set (h : σ.Agrees n τ) : (σ.set t v).Agrees n (τ.set t v) := by
  refine ⟨h.memory, h.world, fun u hu => ?_⟩
  by_cases hut : u = t
  · rw [hut, Store.set_temps_self, Store.set_temps_self]
  · rw [Store.set_temps_of_ne hut, Store.set_temps_of_ne hut]
    exact h.temps u hu

theorem Store.Agrees.put {a : Word} (h : σ.Agrees n τ) : (σ.put a v).Agrees n (τ.put a v) :=
  ⟨congrArg (·.store a v) h.memory, h.world, h.temps⟩

theorem Store.Agrees.call (h : σ.Agrees n τ) (l : Label) (offsets vs : List Word) :
    (τ.call I l offsets vs).1 = (σ.call I l offsets vs).1 ∧
      (σ.call I l offsets vs).2.Agrees n (τ.call I l offsets vs).2 := by
  simp only [Store.call, h.memory, h.world]
  exact ⟨trivial, rfl, rfl, h.temps⟩

theorem Store.Keeps.set (h : τ.Keeps n m τ') (ht : ¬ m.HasTemp t) : τ.Keeps n m (τ'.set t v) := by
  intro u hu hum
  have hne : u ≠ t := fun heq => ht (heq ▸ hum)
  rw [Store.set_temps_of_ne hne]
  exact h u hu hum

/-- An old temporary is none of those that were drawn. -/
theorem Store.Keeps.set_old (h : τ.Keeps n m τ') (ht : n.HasTemp t) :
    τ.Keeps n m (τ'.set t v) := by
  intro u hu hum
  have hne : u ≠ t := fun heq => hu (heq ▸ ht)
  rw [Store.set_temps_of_ne hne]
  exact h u hu hum

theorem Names.not_hasTemp_of_le (h : n ≤ m) : ¬ n.HasTemp ⟨m.temps⟩ :=
  Nat.not_lt.mpr (Names.temps_le h)

end Agreement

/-! ## The code does what the tree does -/

section Meaning

variable {W : Type} {I : Interpretation W} {loc : Location} {n : Names}

/-- After the code of an expression its value is the one that direct evaluation gives; the stores
agree, and what was drawn before is kept. -/
structure Expr.Means (I : Interpretation W) (n m : Names) (e : Expr) (pre : List Stmt) (val : Expr)
    (σ τ : Store W) : Prop where
  value : (val.value I (Stmt.effects I pre τ)).1 = (e.value I σ).1
  agrees : (e.value I σ).2.Agrees n (val.value I (Stmt.effects I pre τ)).2
  keeps : τ.Keeps n m (val.value I (Stmt.effects I pre τ)).2

/-- The code of a statement leaves stores that agree, and keeps what was drawn before. -/
structure Stmt.Means (I : Interpretation W) (n m : Names) (st : Stmt) (code : List Stmt)
    (σ τ : Store W) : Prop where
  agrees : (st.effect I σ).Agrees n (Stmt.effects I code τ)
  keeps : τ.Keeps n m (Stmt.effects I code τ)

@[inherit_doc Expr.Straight]
def Tree.Straight (n : Names) : Tree → Prop
  | .expr e _ | .operand e _ => e.Straight n
  | .args es _ => Expr.AllStraight n es
  | .stmt st => st.Straight n
  | .stmts ss => Stmt.AllStraight n ss

/-- After the code of an operand its temporary has the value that direct evaluation gives; the
stores agree, and what was drawn before is kept. -/
structure Expr.Puts (I : Interpretation W) (n m : Names) (e : Expr) (t : Temp) (code : List Stmt)
    (σ τ : Store W) : Prop where
  value : (Stmt.effects I code τ).temps t = (e.value I σ).1
  agrees : (e.value I σ).2.Agrees n (Stmt.effects I code τ)
  keeps : τ.Keeps n m (Stmt.effects I code τ)

/-- The code of a tree does what its direct evaluation does. -/
def Tree.Means (I : Interpretation W) (n m : Names) (code : List Stmt) (σ τ : Store W) : Tree → Prop
  | .expr e val => Expr.Means I n m e code val σ τ
  | .operand e t => Expr.Puts I n m e t code σ τ
  | .args es vals =>
    Expr.values I vals (Stmt.effects I code τ) =
        ((Expr.values I es σ).1, Stmt.effects I code τ) ∧
      (Expr.values I es σ).2.Agrees n (Stmt.effects I code τ) ∧
      τ.Keeps n m (Stmt.effects I code τ)
  | .stmt st => Stmt.Means I n m st code σ τ
  | .stmts ss => Stmt.Means I n m (.seq ss) code σ τ

/-- After the code of an operand and other code, its temporary is as it was left. -/
theorem Canonizes.kept {k k' : Names} {e : Expr} {t : Temp} {code : List Stmt} {τ τ' : Store W}
    (h : Canonizes (.operand e t) k code k') (hn : n ≤ k) (hkeep : τ.Keeps n k' τ') :
    τ'.temps t = τ.temps t :=
  hkeep t (fun ht => h.drawn.1 (Nat.lt_of_lt_of_le ht (Names.temps_le hn))) h.drawn.2

theorem Expr.Puts.pair {k k' : Names} {l r : Expr} {t u : Temp} {code code' : List Stmt}
    {σ τ : Store W} (h : Canonizes (.operand l t) k code k') (hn : n ≤ k)
    (hl : Expr.Puts I n k l t code σ τ)
    (hr : ∀ {τ₁ : Store W}, (l.value I σ).2.Agrees n τ₁ →
      Expr.Puts I n k' r u code' (l.value I σ).2 τ₁) :
    let τ' := Stmt.effects I (code ++ code') τ
    τ'.temps t = (l.value I σ).1 ∧ τ'.temps u = (r.value I (l.value I σ).2).1 ∧
      (r.value I (l.value I σ).2).2.Agrees n τ' ∧ τ.Keeps n k τ' := by
  have hsecond := hr hl.agrees
  rw [Stmt.effects_append]
  exact ⟨(h.kept hn hsecond.keeps).trans hl.value, hsecond.value, hsecond.agrees,
    hl.keeps.trans hsecond.keeps h.le⟩

theorem Canonizes.means {t : Tree} {k m : Names} {code : List Stmt} (h : Canonizes t k code m) :
    t.Straight n → n ≤ k → ∀ {σ τ : Store W}, σ.Agrees n τ → t.Means I n k code σ τ := by
  induction h with
  | const | name => exact fun _ _ _ _ hστ => ⟨rfl, hστ, .refl _ _ _⟩
  | temp => exact fun ht _ _ _ hστ => ⟨hστ.temps _ ht, hστ, .refl _ _ _⟩
  | @mem k _ _ _ _ _ ih =>
    intro hst hn σ τ hστ
    have hA := ih hst (Names.le_trans hn (Names.le_newTemp _)) hστ
    have hkeeps : τ.Keeps n k _ := fun t ht hts => hA.keeps t ht (Nat.lt_succ_of_lt hts)
    refine ⟨?_, ?_, ?_⟩
    · simp only [Stmt.effects_append, Stmt.effects, Stmt.effect, Expr.value,
        Store.set_temps_self, hA.value, hA.agrees.memory]
    · simp only [Stmt.effects_append, Stmt.effects, Stmt.effect, Expr.value]
      exact hA.agrees.set_right (Names.not_hasTemp_of_le hn)
    · simp only [Stmt.effects_append, Stmt.effects, Stmt.effect, Expr.value]
      exact hkeeps.set k.not_hasTemp_newTemp
  | @operand k _ _ _ _ _ ih =>
    intro hst hn σ τ hστ
    have hE := ih hst (Names.le_trans hn (Names.le_newTemp _)) hστ
    have hkeeps : τ.Keeps n k _ := fun t ht hts => hE.keeps t ht (Nat.lt_succ_of_lt hts)
    refine ⟨?_, ?_, ?_⟩ <;> simp only [Stmt.effects_append, Stmt.effects, Stmt.effect]
    · rw [Store.set_temps_self]
      exact hE.value
    · exact hE.agrees.set_right (Names.not_hasTemp_of_le hn)
    · exact hkeeps.set k.not_hasTemp_newTemp
  | binary h₁ _ ih₁ ih₂ =>
    intro hst hn σ τ hστ
    obtain ⟨hx, hy, hagree, hkeep⟩ := Expr.Puts.pair h₁ hn (ih₁ hst.1 hn hστ)
      (ih₂ hst.2 (Names.le_trans hn h₁.le))
    refine ⟨?_, hagree, hkeep⟩
    simp only [Expr.value, hx, hy]
  | unary _ ih =>
    intro hst hn σ τ hστ
    have hE := ih hst hn hστ
    refine ⟨?_, hE.agrees, hE.keeps⟩
    simp only [Expr.value, hE.value]
  | @call _ _ f offsets es _ _ _ ih =>
    intro hst hn σ τ hστ
    obtain ⟨hvalues, hagree, hkeep⟩ := ih hst hn hστ
    obtain ⟨hresult, hagree'⟩ := hagree.call (I := I) f offsets (Expr.values I es σ).1
    refine ⟨?_, ?_, ?_⟩
    · simpa only [Expr.value, hvalues] using hresult
    · simpa only [Expr.value, hvalues] using hagree'
    · intro t ht hts
      simp only [Expr.value, hvalues, Store.call_temps]
      exact hkeep t ht hts
  | after h₁ _ ih₁ ih₂ =>
    intro hst hn σ τ hστ
    have hS := ih₁ hst.1 hn hστ
    have hE := ih₂ hst.2 (Names.le_trans hn h₁.le) hS.agrees
    refine ⟨?_, ?_, ?_⟩ <;> rw [Stmt.effects_append]
    · exact hE.value
    · exact hE.agrees
    · exact hS.keeps.trans hE.keeps h₁.le
  | noArgs => exact fun _ _ _ _ hστ => ⟨rfl, hστ, .refl _ _ _⟩
  | arg h₁ _ ih₁ ih₂ =>
    intro hst hn σ τ hστ
    have hA := ih₁ hst.1 hn hστ
    obtain ⟨hvalues, hagree, hkeep⟩ := ih₂ hst.2 (Names.le_trans hn h₁.le) hA.agrees
    have hkept := (h₁.kept hn hkeep).trans hA.value
    refine ⟨?_, ?_, ?_⟩ <;> rw [Stmt.effects_append]
    · simp only [Expr.values, Expr.value, hvalues, hkept]
    · exact hagree
    · exact hA.keeps.trans hkeep h₁.le
  | label | jump | branch => exact fun hst => hst.elim
  | eval _ ih =>
    intro hst hn σ τ hστ
    have hE := ih hst hn hστ
    refine ⟨?_, ?_⟩ <;> rw [Stmt.effects_append]
    · exact hE.agrees
    · exact hE.keeps
  | store h₁ _ ih₁ ih₂ =>
    intro hst hn σ τ hστ
    obtain ⟨hx, hy, hagree, hkeep⟩ := Expr.Puts.pair h₁ hn (ih₁ hst.1 hn hστ)
      (ih₂ hst.2 (Names.le_trans hn h₁.le))
    -- the store comes last, when both values are in their temporaries
    refine ⟨?_, ?_⟩ <;> rw [Stmt.effects_append]
    · simp only [Stmt.effects, Stmt.effect, Expr.value, hx, hy]
      exact hagree.put
    · exact hkeep
  | set _ ih =>
    intro hst hn σ τ hστ
    have hE := ih hst.2 hn hστ
    refine ⟨?_, ?_⟩ <;> rw [Stmt.effects_append]
    · simp only [Stmt.effects, Stmt.effect, Expr.value, hE.value]
      exact hE.agrees.set
    · exact hE.keeps.set_old hst.1
  | seq _ ih => exact ih
  | noStmts => exact fun _ _ _ _ hστ => ⟨hστ, .refl _ _ _⟩
  | next h₁ _ ih₁ ih₂ =>
    intro hst hn σ τ hστ
    have hS := ih₁ hst.1 hn hστ
    have hSS := ih₂ hst.2 (Names.le_trans hn h₁.le) hS.agrees
    refine ⟨?_, ?_⟩ <;> rw [Stmt.effects_append]
    · exact hSS.agrees
    · exact hS.keeps.trans hSS.keeps h₁.le

/-- Canonical code has the meaning of its tree.  A statement that nothing jumps out of or into, with
moves into temporaries and memory only and with temporaries that were handed out, has canonical code;
and whatever labels and calls mean and whatever the store holds, that code, run statement by
statement, ends with the same memory, the same world and the same values of the temporaries that
were handed out before as the direct evaluation of the statement. -/
theorem Stmt.canonize_effect (loc : Location) {s : Session} {st : Stmt} (h : st.Straight s.names) :
    ∃ code s', st.canonize loc s = .ok code s' ∧ Ir.isCanonical code ∧
      ∀ (W : Type) (I : Interpretation W) (σ : Store W),
        (Stmt.effects I code σ).memory = (st.effect I σ).memory ∧
        (Stmt.effects I code σ).world = (st.effect I σ).world ∧
        ∀ t, s.names.HasTemp t → (Stmt.effects I code σ).temps t = (st.effect I σ).temps t := by
  obtain ⟨code, s', hcode⟩ := (Stmt.accepts_canonize loc st).exists_ok h.isMovable s
  refine ⟨code, s', hcode, Stmt.isCanonical_canonize hcode, fun W I σ => ?_⟩
  have hmeans : Stmt.Means I s.names s.names st code σ σ :=
    (Stmt.canonizes hcode).means h (Names.le_refl _) (.refl s.names σ)
  exact ⟨hmeans.agrees.memory, hmeans.agrees.world, hmeans.agrees.temps⟩

end Meaning

/-- Stores a sum.  Its second operand overwrites, with the result of a call, the temporary that is
the first one. -/
def overwriting : Stmt :=
  .move (.mem (.temp ⟨0⟩)) (.binary .add (.temp ⟨1⟩)
    (.after (.move (.temp ⟨1⟩) (.call ⟨0⟩ [0] [.mem (.temp ⟨0⟩)])) (.temp ⟨1⟩)))

/-- Every call gives five, and the world lists the arguments of the calls. -/
def listing : Interpretation (List (List Word)) where
  address _ := 0
  call _ _ vs := fun (memory, calls) => (5, memory, vs :: calls)

/-- The sum has the value that the first operand had before the call. -/
theorem Stmt.canonize_effect_overwriting :
    overwriting.Straight { temps := 2 } ∧
    ∃ code s', overwriting.canonize {} { names := { temps := 2 } } = .ok code s' ∧
      Ir.isCanonical code ∧
      ∀ temps : Temp → Word, temps ⟨0⟩ = 8 → temps ⟨1⟩ = 3 →
        let σ := Stmt.effects listing code { temps, memory := {}, world := [] }
        σ.memory = ({} : Memory).store 8 8 ∧ σ.world = [[0]] ∧ σ.temps ⟨1⟩ = 5 := by
  have hst : overwriting.Straight { temps := 2 } := by
    simp [overwriting, Stmt.Straight, Expr.Straight, Expr.AllStraight, Names.HasTemp]
  obtain ⟨code, s', hcode, hform, heffect⟩ :=
    Stmt.canonize_effect {} (s := { names := { temps := 2 } }) hst
  refine ⟨hst, code, s', hcode, hform, fun temps h0 h1 => ?_⟩
  obtain ⟨hm, hw, ht⟩ := heffect _ listing { temps, memory := {}, world := [] }
  intro σ
  rw [hm, hw, ht ⟨1⟩ Nat.one_lt_two]
  simp [overwriting, listing, Stmt.effect, Expr.value, Expr.values, Store.call, Store.set,
    Store.put, h0, h1, Machine.Memory.load_empty, BinOp.eval]

end MmixBackend.Ir
