import MmixBackend.Proofs.Activations
import MmixBackend.Proofs.Insertion
import MmixBackend.Proofs.Selection

/-!
# Executing selected code

Abstract code is executed one instruction after another over temporaries.  A branch goes to its
first label or falls through to whatever stands next; its second label plays no part.  A call acts
on what functions share and leaves the temporaries alone.

The code selected for a canonical expression computes the value of the expression into its
temporary and keeps what was handed out before, whether or not it makes a call on the way.
-/

namespace MmixBackend

open Machine Build

/-! ## Instructions one after another -/

/-- What code is executed in. -/
structure Surroundings where
  /-- Where the data of a name are. -/
  data : String → Word
  /-- What a call does to what functions share. -/
  calls : Label → World → World → Prop
  /-- The remainder that a call leaves behind. -/
  left : Label → World → Word

/-- What an instruction other than a call does. -/
def Instr.perform? (data : String → Word) : Instr → List Word → Chip → Option (Effect Word Chip)
  | .label _, _, x => some ⟨[], x, none⟩
  | .oper (.jump _) _ _ (l :: _), [], x => some ⟨[], x, some l⟩
  | .oper (.branch _) _ _ (pos :: _), [v], x => some ⟨[], x, if v ≠ 0 then some pos else none⟩
  | .oper op _ _ _, vs, x | .move op _ _, vs, x =>
    (op.compute data vs x).map fun r => ⟨r.1, r.2, none⟩

/-- Where control goes from a position; without a label, on to the next one. -/
def Code.next? (c : Code) (i : Nat) : Option Label → Option Successor
  | none => some (.instr (i + 1))
  | some l => c.target? (labelsFrom 0 ∅ c.instrs) l

/-- One instruction, with the call it makes and the world it makes it in. -/
inductive Code.Goes (S : Surroundings) (c : Code) :
    Moment Temp Word Chip → List (Label × World) → Moment Temp Word Chip → Prop
  | act {i : Nat} {instr : Instr} {σ : Temp → Word} {x : Chip} {e : Effect Word Chip}
      {p : Successor} (hinstr : c.instrs[i]? = some instr)
      (hdoes : instr.perform? S.data (instr.uses.map σ) x = some e)
      (hnext : c.next? i e.target = some p) :
      Goes S c ⟨.instr i, σ, x⟩ [] ⟨p, writeAll σ instr.defs e.written, e.state⟩
  | call {i window : Nat} {name : String} {f : Label} {σ : Temp → Word} {x : Chip} {w : World}
      (hinstr : c.instrs[i]? = some (.oper (.call window name) [] [] [f]))
      (hcall : S.calls f x.world w) :
      Goes S c ⟨.instr i, σ, x⟩ [(f, x.world)] ⟨.instr (i + 1), σ, ⟨S.left f x.world, w⟩⟩

/-- Instructions one after another, with the calls they make. -/
inductive Code.Runs (S : Surroundings) (c : Code) :
    Moment Temp Word Chip → List (Label × World) → Moment Temp Word Chip → Prop
  | stop {x : Moment Temp Word Chip} : Runs S c x [] x
  | step {x y z : Moment Temp Word Chip} {events events' : List (Label × World)}
      (hstep : Goes S c x events y) (hrun : Runs S c y events' z) :
      Runs S c x (events ++ events') z

theorem Code.Runs.trans {S : Surroundings} {c : Code} {x y z : Moment Temp Word Chip}
    {events events' : List (Label × World)} (h : c.Runs S x events y)
    (h' : c.Runs S y events' z) : c.Runs S x (events ++ events') z := by
  induction h with
  | stop => exact h'
  | step hstep _ ih =>
    rw [List.append_assoc]
    exact .step hstep (ih h')

/-! ## Code without jumps -/

/-- Code that is executed from its start to its end. -/
inductive Straight (S : Surroundings) :
    List Instr → (Temp → Word) → Chip → List (Label × World) → (Temp → Word) → Chip → Prop
  | nil {σ : Temp → Word} {x : Chip} : Straight S [] σ x [] σ x
  | act {instr : Instr} {code : List Instr} {σ σ' : Temp → Word} {x x₁ x' : Chip} {vs : List Word}
      {events : List (Label × World)}
      (hdoes : instr.perform? S.data (instr.uses.map σ) x = some ⟨vs, x₁, none⟩)
      (hrest : Straight S code (writeAll σ instr.defs vs) x₁ events σ' x') :
      Straight S (instr :: code) σ x events σ' x'
  | call {window : Nat} {name : String} {f : Label} {code : List Instr} {σ σ' : Temp → Word}
      {x x' : Chip} {w : World} {events : List (Label × World)} (hcall : S.calls f x.world w)
      (hrest : Straight S code σ ⟨S.left f x.world, w⟩ events σ' x') :
      Straight S (.oper (.call window name) [] [] [f] :: code) σ x ((f, x.world) :: events) σ' x'

section Straight

variable {S : Surroundings} {code code' : List Instr} {σ σ' σ'' : Temp → Word} {x x' x'' : Chip}
  {events events' : List (Label × World)}

theorem Straight.append (h : Straight S code σ x events σ' x')
    (h' : Straight S code' σ' x' events' σ'' x'') :
    Straight S (code ++ code') σ x (events ++ events') σ'' x'' := by
  induction h with
  | nil => exact h'
  | act hdoes _ ih => exact .act hdoes (ih h')
  | call hcall _ ih => exact .call hcall (ih h')

theorem straight_act {instr : Instr} {vs : List Word}
    (h : instr.perform? S.data (instr.uses.map σ) x = some ⟨vs, x', none⟩) :
    Straight S [instr] σ x [] (writeAll σ instr.defs vs) x' := .act h .nil

/-- Within code, it is executed from where it stands to behind it. -/
theorem Straight.runs {c : Code} (h : Straight S code σ x events σ' x') :
    ∀ (pre post : List Instr), c.instrs = pre ++ (code ++ post) →
      c.Runs S ⟨.instr pre.length, σ, x⟩ events ⟨.instr (pre.length + code.length), σ', x'⟩ := by
  induction h with
  | nil =>
    intro pre post _
    exact .stop
  | @act instr code σ σ' x x₁ x' vs events hdoes _ ih =>
    intro pre post hc
    have hinstr : c.instrs[pre.length]? = some instr := by simp [hc]
    have hrest := ih (pre ++ [instr]) post (by simp [hc])
    rw [List.length_append, List.length_singleton, Nat.add_assoc, Nat.add_comm 1] at hrest
    exact .step (.act hinstr hdoes rfl) hrest
  | @call window name f code σ σ' x x' w events hcall _ ih =>
    intro pre post hc
    have hinstr : c.instrs[pre.length]? = some (.oper (.call window name) [] [] [f]) := by
      simp [hc]
    have hrest := ih (pre ++ [.oper (.call window name) [] [] [f]]) post (by simp [hc])
    rw [List.length_append, List.length_singleton, Nat.add_assoc, Nat.add_comm 1] at hrest
    exact .step (.call hinstr hcall) hrest

end Straight

/-! ## Values -/

/-- One temporary has a new value, and the others have kept theirs. -/
def Sets (σ : Temp → Word) (t : Temp) (v : Word) (σ' : Temp → Word) : Prop :=
  σ' t = v ∧ ∀ u, u ≠ t → σ' u = σ u

theorem sets_writeAll (σ : Temp → Word) (t : Temp) (v : Word) : Sets σ t v (writeAll σ [t] [v]) :=
  ⟨if_pos rfl, fun _ hu => if_neg hu⟩

theorem Sets.again {σ σ₁ σ₂ : Temp → Word} {t : Temp} {v₁ v₂ : Word} (h₁ : Sets σ t v₁ σ₁)
    (h₂ : Sets σ₁ t v₂ σ₂) : Sets σ t v₂ σ₂ :=
  ⟨h₂.1, fun u hu => (h₂.2 u hu).trans (h₁.2 u hu)⟩

namespace Selection

variable {S : Surroundings} {x : Chip}

theorem straight_steps (t : Temp) (steps : List ConstantStep) :
    ∀ σ : Temp → Word, ∃ σ', Straight S (steps.map (·.instr t)) σ x [] σ' x ∧
      Sets σ t (constantValue steps (σ t)) σ' := by
  induction steps with
  | nil =>
    intro σ
    exact ⟨σ, .nil, rfl, fun _ _ => rfl⟩
  | cons step steps ih =>
    intro σ
    have hstep : Straight S [step.instr t] σ x [] (writeAll σ [t] [step.value (σ t)]) x := by
      cases step with
      | set n => exact straight_act rfl
      | add place n => exact straight_act rfl
      | negate => exact straight_act rfl
    have hsets := sets_writeAll σ t (step.value (σ t))
    obtain ⟨σ', hrest, hσ'⟩ := ih (writeAll σ [t] [step.value (σ t)])
    rw [hsets.1] at hσ'
    exact ⟨σ', hstep.append hrest, hsets.again hσ'⟩

theorem straight_loadConstant (t : Temp) (v : Word) (σ : Temp → Word) :
    ∃ σ', Straight S (loadConstant t v) σ x [] σ' x ∧ Sets σ t v σ' := by
  obtain ⟨σ', h, hσ'⟩ := straight_steps (S := S) (x := x) t (constantSteps v) σ
  rw [constantValue_constantSteps] at hσ'
  exact ⟨σ', h, hσ'⟩

/-- The instructions of an operator give its value, over all words. -/
theorem straight_binary (op : BinOp) (l r t : Temp) (σ : Temp → Word) :
    ∃ σ' x', Straight S (binary op l r t) σ x [] σ' x' ∧ x'.world = x.world ∧
      Sets σ t (op.eval (σ l) (σ r)) σ' := by
  unfold binary
  split
  · next hop =>
    have hcompare := sets_writeAll σ t (Word.order (σ l) (σ r))
    have htest := hcompare.again (sets_writeAll _ t
      (Word.ofBool ((testOf op).holds (writeAll σ [t] [Word.order (σ l) (σ r)] t))))
    refine ⟨_, x, .act rfl (.act rfl .nil), rfl, htest.1.trans ?_, htest.2⟩
    rw [hcompare.1, holds_testOf hop]
  · next hop =>
    split
    · next hmod =>
      subst hmod
      exact ⟨_, { x with remainder := (Word.floorDiv (σ l) (σ r)).2 }, .act rfl (.act rfl .nil), rfl,
        (sets_writeAll σ t _).again (sets_writeAll _ t _)⟩
    · next hmod =>
      cases op with
      | or | and | add | sub | mul => exact ⟨_, x, .act rfl .nil, rfl, sets_writeAll σ t _⟩
      | div =>
        exact ⟨_, { x with remainder := (Word.floorDiv (σ l) (σ r)).2 }, .act rfl .nil, rfl,
          sets_writeAll σ t _⟩
      | mod => exact absurd rfl hmod
      | eq | ne | lt | gt | le | ge => exact absurd rfl hop

/-! ## Expressions -/

section

variable {window : Nat} {loc : Location} {image : Image} {a : Activation} {w : World} {r : Word}

theorem temp_eq_ok {t : Temp} {v : Word} (h : a.temp t = .ok v) : a.temps[t]? = some v := by
  unfold Activation.temp at h
  split at h
  · next hv =>
    cases h
    exact hv
  · cases h

/-- The temporaries that were handed out have the values that a function has given them. -/
def Agrees (a : Activation) (n : Names) (σ : Temp → Word) : Prop :=
  ∀ t, n.HasTemp t → ∀ v, a.temps[t]? = some v → σ t = v

theorem Agrees.congr {n n' : Names} {σ σ' : Temp → Word} (h : Agrees a n σ) (hn : n ≤ n')
    (hσ : ∀ u, n'.HasTemp u → σ' u = σ u) : Agrees a n σ' :=
  fun t ht v hv => (hσ t (Nat.lt_of_lt_of_le ht (Names.temps_le hn))).trans (h t ht v hv)

theorem straight_arguments {n : Names} {args : List Ir.Expr} :
    ∀ {offsets vs : List Word} {s s' : Session} {code : List Instr} {σ : Temp → Word}
      {m m' : Memory}, args.all Ir.Expr.isOperand →
      arguments window loc offsets args s = .ok code s' → n ≤ s.names →
      (∀ t ∈ Ir.Expr.listTemps args, n.HasTemp t) → Agrees a n σ →
      evalAll image w.memory a args = .ok vs → storeArgs w.sp m offsets vs = .ok m' →
      ∃ σ', Straight S code σ ⟨r, { w with memory := m }⟩ [] σ' ⟨r, { w with memory := m' }⟩ ∧
        ∀ u, s.names.HasTemp u → σ' u = σ u := by
  induction args with
  | nil =>
    intro offsets vs s s' code σ m m' _ h _ _ _ hvs hm
    cases hvs
    obtain rfl : m' = m := by
      cases offsets <;> cases hm <;> rfl
    obtain ⟨rfl, rfl⟩ : code = [] ∧ s' = s := by
      cases offsets <;> simpa only [arguments, pure_ok] using h
    exact ⟨σ, .nil, fun _ _ => rfl⟩
  | cons arg args ih =>
    intro offsets vs s s' code σ m m' hops h hn hold hσ hvs hm
    cases offsets with
    | nil =>
      obtain ⟨rfl, rfl⟩ : code = [] ∧ s' = s := by simpa only [arguments, pure_ok] using h
      cases hm
      exact ⟨σ, .nil, fun _ _ => rfl⟩
    | cons offset offsets =>
      rw [List.all_cons, Bool.and_eq_true] at hops
      obtain ⟨harg, hargs⟩ := hops
      cases arg with
      | const | name | mem | binary | unary | call | after => cases harg
      | temp t =>
        obtain ⟨v, hv, hvs⟩ := bind_eq_ok hvs
        obtain ⟨vs', hvs', hvs⟩ := bind_eq_ok hvs
        cases hvs
        obtain ⟨addr, haddr, hm⟩ := bind_eq_ok hm
        obtain rfl := checkedAdd_eq_ok haddr
        have ht : n.HasTemp t := hold t (List.mem_append_left _ (List.mem_singleton_self t))
        have hold' : ∀ u ∈ Ir.Expr.listTemps args, n.HasTemp u :=
          fun u hu => hold u (List.mem_append_right _ hu)
        obtain rfl : σ t = v := hσ t ht v (temp_eq_ok hv)
        simp only [arguments, expr, bind_ok, pure_ok, Prod.exists, Prod.mk.injEq] at h
        obtain ⟨_, t, s, ⟨⟨rfl, rfl⟩, rfl⟩, h⟩ := h
        split at h
        · simp only [bind_ok, pure_ok] at h
          obtain ⟨_, _, ⟨rfl, rfl⟩, rest, _, hrest', rfl, rfl⟩ := h
          obtain ⟨σ', hcode, hσ'⟩ := ih hargs hrest' hn hold' hσ hvs' hm
          exact ⟨σ', .act rfl hcode, hσ'⟩
        · simp only [constant, bind_ok, newTemp_ok, pure_ok, Prod.exists,
            Prod.mk.injEq] at h
          obtain ⟨_, _, _, ⟨_, _, ⟨rfl, rfl⟩, ⟨rfl, rfl⟩, rfl⟩, _, _, ⟨rfl, rfl⟩, rest, _,
            hrest', rfl, rfl⟩ := h
          -- the offset goes into a temporary that none of the arguments is in
          obtain ⟨σ₁, hconst, hset⟩ := straight_loadConstant (S := S)
            (x := ⟨r, { w with memory := m }⟩) ⟨s.names.temps⟩ offset σ
          have hkeep : ∀ u, s.names.HasTemp u → σ₁ u = σ u := by
            intro u hu
            refine hset.2 u ?_
            rintro rfl
            exact Nat.lt_irrefl _ hu
          obtain ⟨σ', hcode, hσ'⟩ := ih hargs hrest'
            (Names.le_trans hn (Names.le_newTemp s.names)) hold' (hσ.congr hn hkeep) hvs' hm
          have hstore : Straight S [.oper .storeArgSum [t, ⟨s.names.temps⟩] [] []] σ₁
              ⟨r, { w with memory := m }⟩ [] σ₁
              ⟨r, { w with memory := m.store (w.sp + offset) (σ t) }⟩ := by
            have hact : Straight S [.oper .storeArgSum [t, ⟨s.names.temps⟩] [] []] σ₁
                ⟨r, { w with memory := m }⟩ [] σ₁ ⟨r, { w with
                  memory := m.store (w.sp + σ₁ ⟨s.names.temps⟩) (σ₁ t) }⟩ := straight_act rfl
            rwa [hset.1, hkeep t (Nat.lt_of_lt_of_le ht (Names.temps_le hn))] at hact
          refine ⟨σ', (hconst.append hstore).append hcode, fun u hu => ?_⟩
          exact (hσ' u (Nat.lt_succ_of_lt hu)).trans (hkeep u hu)

/-- The value that an expression has, with the call it makes done at once. -/
inductive Takes (image : Image) (calls : Label → World → World → Prop) (w : World) (a : Activation)
    (e : Ir.Expr) : List (Label × World) → World → Word → Prop
  | plain {v : Word} (hcall : Call.inExpr e = none)
      (heval : eval image w.memory a none e = .ok v) : Takes image calls w a e [] w v
  | call {call : Call} {vs : List Word} {m : Memory} {w' : World} {v : Word}
      (hcall : Call.inExpr e = some call) (hargs : evalAll image w.memory a call.args = .ok vs)
      (hstore : storeArgs w.sp w.memory call.offsets vs = .ok m)
      (hcalls : calls call.callee { w with memory := m } w')
      (heval : eval image w'.memory a (some (w'.memory.load w'.sp)) e = .ok v) :
      Takes image calls w a e [(call.callee, { w with memory := m })] w' v

/-- Code that computes a word into a temporary, with the calls it makes, and keeps the temporaries
that were handed out before. -/
def Computes (S : Surroundings) (n : Names) (code : List Instr) (t : Temp) (σ : Temp → Word)
    (r : Word) (w : World) (events : List (Label × World)) (w' : World) (v : Word) : Prop :=
  ∃ σ' r', Straight S code σ ⟨r, w⟩ events σ' ⟨r', w'⟩ ∧ σ' t = v ∧
    ∀ u, n.HasTemp u → σ' u = σ u

theorem Sets.computes {n : Names} {code : List Instr} {σ σ' : Temp → Word} {r' : Word} {w' : World}
    {events : List (Label × World)} {t : Temp} {v : Word} (h : Sets σ t v σ')
    (hcode : Straight S code σ ⟨r, w⟩ events σ' ⟨r', w'⟩) (ht : n.temps ≤ t.index) :
    Computes S n code t σ r w events w' v := by
  refine ⟨σ', r', hcode, h.1, fun u hu => h.2 u ?_⟩
  rintro rfl
  exact Nat.not_lt_of_le ht hu

/-- An instruction that sets a new temporary from what code has computed. -/
theorem Computes.snoc {n : Names} {code : List Instr} {t t' : Temp} {σ : Temp → Word}
    {events : List (Label × World)} {w' : World} {v v' : Word} {instr : Instr}
    (h : Computes S n code t σ r w events w' v) (ht' : n.temps ≤ t'.index)
    (hdefs : instr.defs = [t'])
    (hdoes : ∀ σ' r', σ' t = v →
      instr.perform? S.data (instr.uses.map σ') ⟨r', w'⟩ = some ⟨[v'], ⟨r', w'⟩, none⟩) :
    Computes S n (code ++ [instr]) t' σ r w events w' v' := by
  obtain ⟨σ', r', hcode, hv, hkeep⟩ := h
  have hact := straight_act (S := S) (hdoes σ' r' hv)
  rw [hdefs] at hact
  have hset := sets_writeAll σ' t' v'
  refine ⟨_, r', by simpa using hcode.append hact, hset.1, fun u hu => ?_⟩
  have hne : u ≠ t' := by
    rintro rfl
    exact Nat.not_lt_of_le ht' hu
  exact (hset.2 u hne).trans (hkeep u hu)

theorem expr_computes {n : Names} :
    ∀ {e : Ir.Expr} {s s' : Session} {code : List Instr} {t : Temp} {σ : Temp → Word}
      {events : List (Label × World)} {w' : World} {v : Word}, e.isValue →
      expr window loc e s = .ok (code, t) s' → n ≤ s.names → (∀ u ∈ e.temps, n.HasTemp u) →
      Agrees a n σ →
      (∀ l addr, image.data[l]? = some addr → S.data (s.names.textOf l) = addr) →
      Takes image S.calls w a e events w' v → Computes S s.names code t σ r w events w' v
  | .const c, s, s', code, t, σ, events, w', v, _, h, _, _, _, _, htakes => by
    simp only [expr, constant, bind_ok, newTemp_ok, pure_ok, Prod.mk.injEq] at h
    obtain ⟨_, _, ⟨rfl, rfl⟩, ⟨rfl, rfl⟩, rfl⟩ := h
    cases htakes with
    | call hcall => cases hcall
    | plain _ heval =>
      cases heval
      obtain ⟨σ', hcode, hset⟩ := straight_loadConstant (S := S) (x := ⟨r, w⟩)
        ⟨s.names.temps⟩ c σ
      exact Sets.computes hset hcode (Nat.le_refl _)
  | .name l, s, s', code, t, σ, events, w', v, _, h, _, _, _, hdata, htakes => by
    simp only [expr, bind_ok, newTemp_ok, textOf_ok, pure_ok, Prod.mk.injEq] at h
    obtain ⟨_, _, ⟨rfl, rfl⟩, _, _, ⟨rfl, rfl⟩, ⟨rfl, rfl⟩, rfl⟩ := h
    cases htakes with
    | call hcall => cases hcall
    | plain _ heval =>
      rw [eval] at heval
      split at heval
      · next addr haddr =>
        cases heval
        have hcode : Straight S [.oper (.address (s.names.textOf l)) [] [⟨s.names.temps⟩] []] σ
            ⟨r, w⟩ [] (writeAll σ [⟨s.names.temps⟩] [S.data (s.names.textOf l)]) ⟨r, w⟩ :=
          straight_act rfl
        rw [hdata l v haddr] at hcode
        exact Sets.computes (sets_writeAll ..) hcode (Nat.le_refl _)
      · cases heval
  | .temp u, s, s', code, t, σ, events, w', v, _, h, _, hold, hσ, _, htakes => by
    simp only [expr, pure_ok, Prod.mk.injEq] at h
    obtain ⟨⟨rfl, rfl⟩, rfl⟩ := h
    cases htakes with
    | call hcall => cases hcall
    | plain _ heval =>
      exact ⟨σ, r, .nil, hσ t (hold t (List.mem_singleton_self t)) v (temp_eq_ok heval),
        fun _ _ => rfl⟩
  | .binary op (.temp l) (.temp r'), s, s', code, t, σ, events, w', v, _, h, _, hold, hσ, _,
      htakes => by
      simp only [expr, bind_ok, newTemp_ok, pure_ok, Prod.mk.injEq, Prod.exists] at h
      obtain ⟨_, l, s, ⟨⟨rfl, rfl⟩, rfl⟩, _, r', s, ⟨⟨rfl, rfl⟩, rfl⟩, _, _, ⟨rfl, rfl⟩, ⟨rfl, rfl⟩,
        rfl⟩ := h
      cases htakes with
      | call hcall => cases hcall
      | plain _ heval =>
        obtain ⟨y, hy, heval⟩ := bind_eq_ok heval
        obtain ⟨z, hz, heval⟩ := bind_eq_ok heval
        cases heval
        obtain rfl : σ l = y := hσ l (hold l (by simp [Ir.Expr.temps])) y (temp_eq_ok hy)
        obtain rfl : σ r' = z := hσ r' (hold r' (by simp [Ir.Expr.temps])) z (temp_eq_ok hz)
        obtain ⟨σ', ⟨r₁, w₁⟩, hcode, rfl, hset⟩ :=
          straight_binary (S := S) (x := ⟨r, w⟩) op l r' ⟨s.names.temps⟩ σ
        exact Sets.computes hset hcode (Nat.le_refl _)
  | .unary op e, s, s', code, t, σ, events, w', v, he, h, hn, hold, hσ, hdata, htakes => by
    simp only [expr, bind_ok, newTemp_ok, pure_ok, Prod.mk.injEq, Prod.exists] at h
    obtain ⟨code, u, s₁, hcode, _, _, ⟨rfl, rfl⟩, ⟨rfl, rfl⟩, rfl⟩ := h
    obtain ⟨y, hinner, rfl⟩ : ∃ y, Takes image S.calls w a e events w' y ∧ v = op.eval y := by
      cases htakes with
      | plain hcall heval =>
        obtain ⟨y, hy, heval⟩ := bind_eq_ok heval
        cases heval
        exact ⟨y, .plain hcall hy, rfl⟩
      | call hcall hargs hstore hcalls heval =>
        obtain ⟨y, hy, heval⟩ := bind_eq_ok heval
        cases heval
        exact ⟨y, .call hcall hargs hstore hcalls hy, rfl⟩
    have he' : e.isValue := he
    refine (expr_computes he' hcode hn hold hσ hdata hinner).snoc
      (Names.temps_le (expr_le hcode)) rfl ?_
    rintro σ' r' rfl
    cases op with
    | neg =>
      show some (Effect.mk [0 - σ' u] (Chip.mk r' w') none) = some (Effect.mk [-σ' u] _ none)
      rw [Int64.zero_sub]
    | not => rfl
  | .call f offsets args, s, s', code, t, σ, events, w', v, hargs, h, hn, hold, hσ, _, htakes => by
    simp only [expr, bind_ok, newTemp_ok, textOf_ok, pure_ok, Prod.mk.injEq] at h
    obtain ⟨code, _, hcode, _, s₁, ⟨rfl, rfl⟩, _, _, ⟨rfl, rfl⟩, ⟨rfl, rfl⟩, rfl⟩ := h
    cases htakes with
    | plain hcall => cases hcall
    | @call call vs m _ _ hcall hvs hstore hcalls heval =>
      cases hcall
      cases heval
      obtain ⟨σ', hstraight, hkeep⟩ := straight_arguments (S := S) (r := r) hargs hcode hn hold
        hσ hvs hstore
      have hresult : Straight S [.oper .result [] [⟨s₁.names.temps⟩] []] σ'
          ⟨S.left f { w with memory := m }, w'⟩ []
          (writeAll σ' [⟨s₁.names.temps⟩] [w'.memory.load (w'.sp + 0)])
          ⟨S.left f { w with memory := m }, w'⟩ := straight_act rfl
      rw [Int64.add_zero] at hresult
      have hset := sets_writeAll σ' ⟨s₁.names.temps⟩ (w'.memory.load w'.sp)
      refine ⟨_, _, hstraight.append (.call hcalls hresult), hset.1, fun u hu => ?_⟩
      have hne : u ≠ ⟨s₁.names.temps⟩ := by
        rintro rfl
        exact Nat.not_lt_of_le (Names.temps_le (arguments_le hcode)) hu
      exact (hset.2 u hne).trans (hkeep u hu)

end

end Selection

end MmixBackend
