import MmixBackend.Proofs.Drawing
import MmixBackend.Proofs.LexicalScope

/-!
# What temporaries stand for

In canonical code static links, offsets and addresses go through temporaries.  No temporary is moved
into at two places, so what one stands for can be read off the statement that sets it: the frame
pointer of a function around, a constant, or the address of a variable.

Main statement: in the code of a program that keeps to lexical scope, every call hands on a link
to the function that the callee is declared in, and every store goes to a variable.
-/

namespace MmixBackend

open Typed Build

namespace Ir

open Selection (New)

/-! ## Roles -/

/-- What a value stands for. -/
inductive Role where
  /-- The frame pointer of the `n`th function around. -/
  | link (n : Nat)
  /-- A constant. -/
  | word (v : Word)
  /-- The address of a variable or a parameter. -/
  | cell

/-- What a value stands for in code, as the statements that set temporaries have it. -/
inductive Plays (N : Nest) (code : List Stmt) : Expr → Role → Prop
  | fp : Plays N code (.temp N.frame.fp) (.link 0)
  | set {t : Temp} {src : Expr} {r : Role} (h : Stmt.move (.temp t) src ∈ code)
      (hsrc : Plays N code src r) : Plays N code (.temp t) r
  | const (v : Word) : Plays N code (.const v) (.word v)
  | follow {e : Expr} {n : Nat} (he : Plays N code e (.link n)) (hn : n + 1 < N.chain.length) :
      Plays N code (.mem e) (.link (n + 1))
  | cell {l r : Expr} {n : Nat} {offset : Word} (hl : Plays N code l (.link n))
      (hr : Plays N code r (.word offset)) (hcell : N.Cell n offset) :
      Plays N code (.binary .add l r) .cell
  | data (l : Label) : Plays N code (.name l) .cell

/-- More code says more of its temporaries. -/
theorem Plays.mono {N : Nest} {code code' : List Stmt} {e : Expr} {r : Role}
    (h : Plays N code e r)
    (hmoves : ∀ t src, Stmt.move (.temp t) src ∈ code → Stmt.move (.temp t) src ∈ code') :
    Plays N code' e r := by
  induction h with
  | fp => exact .fp
  | set hmem _ ih => exact .set (hmoves _ _ hmem) ih
  | const v => exact .const v
  | follow _ hn ih => exact .follow ih hn
  | cell _ _ hcell ihl ihr => exact .cell ihl ihr hcell
  | data l => exact .data l

/-- A call of canonical code hands on a static link that the callee admits, and arguments in their
area. -/
def Handles (N : Nest) (code : List Stmt) (call : Machine.Call) : Prop :=
  ∃ k os link args, call.offsets = 0 :: os ∧ call.args = link :: args ∧
    Plays N code link (.link k) ∧ N.Admits call.callee k ∧
    ∀ o ∈ os, 8 ≤ o.toInt ∧ o.toInt + 8 ≤ N.frame.arguments.toInt

/-- A statement of canonical code makes such calls only, and stores to variables only. -/
structure Stmt.Proper (N : Nest) (code : List Stmt) (st : Stmt) : Prop where
  calls : ∀ call, Machine.Call.inStmt st = some call → Handles N code call
  stores : ∀ a src, st = .move (.mem a) src → Plays N code a .cell

/-- A value of canonical code makes such calls only. -/
def Expr.Handled (N : Nest) (code : List Stmt) (e : Expr) : Prop :=
  ∀ call, Machine.Call.inExpr e = some call → Handles N code call

section Mono

variable {N : Nest} {code code' : List Stmt}

theorem Handles.mono {call : Machine.Call} (h : Handles N code call)
    (hmoves : ∀ t src, Stmt.move (.temp t) src ∈ code → Stmt.move (.temp t) src ∈ code') :
    Handles N code' call := by
  obtain ⟨k, os, link, args, hoffsets, hargs, hlink, hrest⟩ := h
  exact ⟨k, os, link, args, hoffsets, hargs, hlink.mono hmoves, hrest⟩

theorem Stmt.Proper.mono {st : Stmt} (h : st.Proper N code)
    (hmoves : ∀ t src, Stmt.move (.temp t) src ∈ code → Stmt.move (.temp t) src ∈ code') :
    st.Proper N code' :=
  ⟨fun call hcall => (h.calls call hcall).mono hmoves,
    fun a src hst => (h.stores a src hst).mono hmoves⟩

end Mono

/-! ## Code in order -/

/-- Code that moves into new temporaries only, into each at one place, and whose statements are
proper. -/
structure Orderly (N : Nest) (n n' : Names) (code : List Stmt) : Prop where
  once : (Stmt.listTargets code).Nodup
  drawn : ∀ t ∈ Stmt.listTargets code, New n n' t
  proper : ∀ st ∈ code, st.Proper N code

section Orderly

variable {N : Nest} {n n₁ n' : Names} {code code' : List Stmt} {e : Expr}

theorem orderly_nil (N : Nest) (n n' : Names) : Orderly N n n' [] :=
  ⟨List.nodup_nil, fun _ ht => (nomatch ht), fun _ hst => nomatch hst⟩

theorem Orderly.mono {m m' : Names} (h : Orderly N n n' code) (hm : m ≤ n) (hm' : n' ≤ m') :
    Orderly N m m' code := by
  refine ⟨h.once, fun t ht => ?_, h.proper⟩
  obtain ⟨hlow, hhigh⟩ := h.drawn t ht
  exact ⟨Nat.le_trans (Names.temps_le hm) hlow, Nat.lt_of_lt_of_le hhigh (Names.temps_le hm')⟩

/-- Code in order, where what is drawn later is new as well. -/
theorem Orderly.seq (h : Orderly N n n₁ code) (h' : Orderly N n₁ n' code') (hle : n ≤ n₁)
    (hle' : n₁ ≤ n') : Orderly N n n' (code ++ code') := by
  refine ⟨?_, fun t ht => ?_, fun st hst => ?_⟩
  · rw [Stmt.listTargets_append]
    refine List.nodup_append.mpr ⟨h.once, h'.once, fun t ht u hu heq => ?_⟩
    subst heq
    exact Nat.lt_irrefl _ (Nat.lt_of_lt_of_le (h.drawn t ht).2 (h'.drawn t hu).1)
  · rw [Stmt.listTargets_append, List.mem_append] at ht
    rcases ht with ht | ht
    · exact (h.mono (Names.le_refl _) hle').drawn t ht
    · exact (h'.mono hle (Names.le_refl _)).drawn t ht
  · rcases List.mem_append.mp hst with hst | hst
    · exact (h.proper st hst).mono fun _ _ => List.mem_append_left _
    · exact (h'.proper st hst).mono fun _ _ => List.mem_append_right _

theorem Orderly.snoc {st : Stmt} (h : Orderly N n n' code) (hst : st.Proper N code)
    (htargets : st.targets = []) : Orderly N n n' (code ++ [st]) := by
  have hsame : Stmt.listTargets (code ++ [st]) = Stmt.listTargets code := by
    rw [Stmt.listTargets_append, Stmt.listTargets, Stmt.listTargets, htargets, List.append_nil,
      List.append_nil]
  refine ⟨hsame ▸ h.once, hsame ▸ h.drawn, fun st' hst' => ?_⟩
  rcases List.mem_append.mp hst' with hst' | hst'
  · exact (h.proper st' hst').mono fun _ _ => List.mem_append_left _
  · obtain rfl := List.mem_singleton.mp hst'
    exact hst.mono fun _ _ => List.mem_append_left _

theorem proper_set {t : Temp} (he : e.Handled N code) : (Stmt.move (.temp t) e).Proper N code := by
  refine ⟨fun call hcall => he call ?_, fun a src hst => by cases hst⟩
  rcases (Option.orElse_eq_some _ _ _).mp hcall with hcall | ⟨-, hcall⟩
  · exact hcall
  · cases hcall

theorem proper_label (l : Label) : (Stmt.label l).Proper N code := by
  constructor
  · intro call hcall
    cases hcall
  · intro a src hst
    cases hst

theorem proper_jump (l : Label) : (Stmt.jump l).Proper N code := by
  constructor
  · intro call hcall
    cases hcall
  · intro a src hst
    cases hst

/-- A value goes into a temporary that nothing was moved into. -/
theorem Orderly.set {t : Temp} (h : Orderly N n n' code) (he : e.Handled N code)
    (ht : t ∉ Stmt.listTargets code) {m : Names} (hm : m ≤ n) (hnew : New m n' t) :
    Orderly N m n' (code ++ [.move (.temp t) e]) := by
  have htargets : Stmt.listTargets (code ++ [.move (.temp t) e]) =
      Stmt.listTargets code ++ [t] := by
    rw [Stmt.listTargets_append]
    rfl
  refine ⟨?_, fun u hu => ?_, fun st hst => ?_⟩
  · rw [htargets]
    refine List.nodup_append.mpr ⟨h.once, List.nodup_singleton t, fun u hu v hv heq => ht ?_⟩
    obtain rfl := List.mem_singleton.mp hv
    exact heq ▸ hu
  · rw [htargets, List.mem_append] at hu
    rcases hu with hu | hu
    · exact (h.mono hm (Names.le_refl _)).drawn u hu
    · obtain rfl := List.mem_singleton.mp hu
      exact hnew
  · rcases List.mem_append.mp hst with hst | hst
    · exact (h.proper st hst).mono fun _ _ => List.mem_append_left _
    · obtain rfl := List.mem_singleton.mp hst
      exact (proper_set he).mono fun _ _ => List.mem_append_left _

/-- A value goes into the temporary that was drawn before its code was made. -/
theorem Orderly.setDrawn (h : Orderly N n.newTemp.2 n' code) (he : e.Handled N code)
    (hle : n.newTemp.2 ≤ n') : Orderly N n n' (code ++ [.move (.temp ⟨n.temps⟩) e]) :=
  h.set he (fun ht => Nat.lt_irrefl _ (h.drawn _ ht).1) (Names.le_newTemp _)
    ⟨Nat.le_refl _, Names.temps_le hle⟩

end Orderly

/-! ## Links and addresses in canonical code -/

section Addresses

variable {N : Nest} {n m : Names} {pre code : List Stmt} {e val : Expr} {t : Temp} {r : Role}

/-- What plays a role goes on to play it in the temporary it is put into. -/
theorem Plays.put (h : Plays N pre val r) : Plays N (pre ++ [.move (.temp t) val]) (.temp t) r :=
  .set (List.mem_append_right _ (List.mem_singleton_self _))
    (h.mono fun _ _ => List.mem_append_left _)

/-- Code that follows static links leaves the frame pointer it comes to. -/
theorem plays_follow {i : Nat} (hi : i < N.chain.length) :
    ∀ {n m : Names} {pre : List Stmt} {val : Expr},
      Canonizes (.expr (Lowering.follow i (.temp N.frame.fp)) val) n pre m →
      Plays N pre val (.link i) := by
  induction i with
  | zero =>
    intro n m pre val h
    cases h
    exact .fp
  | succ i ih =>
    intro n m pre val h
    rw [Lowering.follow_succ] at h
    cases h with
    | mem ha => exact ((ih (Nat.lt_of_succ_lt hi) ha).follow hi).put

theorem plays_link {i : Nat} (hi : i < N.chain.length)
    (h : Canonizes (.operand (Lowering.follow i (.temp N.frame.fp)) t) n code m) :
    Plays N code (.temp t) (.link i) := by
  cases h with
  | operand h => exact (plays_follow hi h).put

/-- The operand for memory that is stored to is the address of a variable. -/
theorem plays_stores {addr : Expr} (hd : N.Stores (.mem addr))
    (h : Canonizes (.operand addr t) n code m) : Plays N code (.temp t) .cell := by
  cases h with
  | operand h =>
    refine Plays.put ?_
    obtain ⟨l, hl⟩ | ⟨i, offset, hl, hcell⟩ := hd
    · cases hl
      cases h
      exact .data l
    · cases hl
      have hi : i < N.chain.length := by
        obtain ⟨_, _, hchain, -⟩ := hcell
        exact (List.getElem?_eq_some_iff.mp hchain).1
      cases h with
      | binary hlink hoffset =>
        cases hoffset with
        | operand hconst =>
          cases hconst
          exact .cell ((plays_link hi hlink).mono fun _ _ => List.mem_append_left _)
            (.set (List.mem_append_right _ List.mem_cons_self) (.const offset)) hcell

end Addresses

theorem handled_temp (N : Nest) (code : List Stmt) (t : Temp) :
    (Expr.temp t).Handled N code := fun call hcall => by cases hcall

/-- What the tree has of calls and stores fits its place. -/
def Tree.Sited (N : Nest) : Tree → Prop
  | .expr e _ | .operand e _ => e.Sited N
  | .args es _ => Expr.AllSited N es
  | .stmt st => st.Sited N
  | .stmts ss => Stmt.AllSited N ss

/-- The value that is left of an expression makes the calls of its place. -/
def Tree.Handled (N : Nest) (code : List Stmt) : Tree → Prop
  | .expr _ val => val.Handled N code
  | .operand .. | .args .. | .stmt _ | .stmts _ => True

theorem Canonizes.orderly {N : Nest} {t : Tree} {n m : Names} {code : List Stmt}
    (h : Canonizes t n code m) : t.Sited N → Orderly N n m code ∧ t.Handled N code := by
  induction h with
  | const | name | temp =>
    exact fun _ => ⟨orderly_nil _ _ _, fun call hcall => by cases hcall⟩
  | noArgs | noStmts => exact fun _ => ⟨orderly_nil _ _ _, trivial⟩
  | label => exact fun _ => ⟨(orderly_nil N _ _).snoc (proper_label _) rfl, trivial⟩
  | jump => exact fun _ => ⟨(orderly_nil N _ _).snoc (proper_jump _) rfl, trivial⟩
  | mem h ih =>
    intro he
    obtain ⟨hord, hval⟩ := ih he
    have hload : (Expr.mem _).Handled N _ := hval
    exact ⟨hord.setDrawn hload h.le, handled_temp _ _ _⟩
  | operand h ih =>
    intro he
    obtain ⟨hord, hval⟩ := ih he
    exact ⟨hord.setDrawn hval h.le, trivial⟩
  | unary _ ih => exact ih
  | call h ih =>
    rintro ⟨hcalls, hargs⟩
    refine ⟨(ih hargs).1, fun call hcall => ?_⟩
    cases hcall
    obtain ⟨k, os, as, rfl, rfl, hadmits, hos⟩ := hcalls
    cases h with
    | arg hlink _ =>
      exact ⟨k, os, _, _, rfl, rfl, (plays_link hadmits.1 hlink).mono fun _ _ =>
        List.mem_append_left _, hadmits, hos⟩
  | branch _ ih | eval _ ih =>
    intro he
    obtain ⟨hord, hval⟩ := ih he
    exact ⟨hord.snoc ⟨hval, fun _ _ hst => nomatch hst⟩ rfl, trivial⟩
  | binary h₁ h₂ ih₁ ih₂ =>
    exact fun he => ⟨(ih₁ he.1).1.seq (ih₂ he.2).1 h₁.le h₂.le, fun call hcall => by cases hcall⟩
  | after h₁ h₂ ih₁ ih₂ =>
    intro he
    obtain ⟨hord, hval⟩ := ih₂ he.2
    exact ⟨(ih₁ he.1).1.seq hord h₁.le h₂.le,
      fun call hcall => (hval call hcall).mono fun _ _ => List.mem_append_right _⟩
  | arg h₁ h₂ ih₁ ih₂ | next h₁ h₂ ih₁ ih₂ =>
    exact fun he => ⟨(ih₁ he.1).1.seq (ih₂ he.2).1 h₁.le h₂.le, trivial⟩
  | store h₁ h₂ ih₁ ih₂ =>
    rintro ⟨hstores, hsrc⟩
    have haddr : Expr.Sited N (.mem _) := Lowering.sited_of_stores hstores
    refine ⟨((ih₁ haddr).1.seq (ih₂ hsrc).1 h₁.le h₂.le).snoc
      ⟨fun _ hc => (nomatch hc), fun _ _ hst => ?_⟩ rfl, trivial⟩
    cases hst
    exact (plays_stores hstores h₁).mono fun _ _ => List.mem_append_left _
  | set =>
    rintro ⟨hstores, -⟩
    obtain ⟨_, hd⟩ | ⟨_, _, hd, -⟩ := hstores <;> cases hd
  | seq _ ih => exact ih

/-- What is moved into a temporary is said at one place. -/
theorem eq_of_nodup_targets {t : Temp} {src src' : Expr} :
    ∀ {code : List Stmt}, (Stmt.listTargets code).Nodup → Stmt.move (.temp t) src ∈ code →
      Stmt.move (.temp t) src' ∈ code → src = src' := by
  have htarget : ∀ {code : List Stmt} {src : Expr}, Stmt.move (.temp t) src ∈ code →
      t ∈ Stmt.listTargets code := by
    intro code src hmem
    obtain ⟨before, rest, rfl⟩ := List.append_of_mem hmem
    rw [Stmt.listTargets_append]
    exact List.mem_append_right _ List.mem_cons_self
  intro code
  induction code with
  | nil => exact fun _ h => nomatch h
  | cons st code ih =>
    intro hnd h h'
    rw [Stmt.listTargets] at hnd
    obtain ⟨-, hrest, hdisj⟩ := List.nodup_append.mp hnd
    rcases List.mem_cons.mp h with rfl | hin
    · rcases List.mem_cons.mp h' with heq | hin'
      · cases heq
        rfl
      · exact absurd rfl (hdisj t List.mem_cons_self t (htarget hin'))
    · rcases List.mem_cons.mp h' with rfl | hin'
      · exact absurd rfl (hdisj t List.mem_cons_self t (htarget hin))
      · exact ih hrest hin hin'

end Ir

/-! ## Chunks -/

/-- Linear code does what the code it is made from does. -/
theorem Linearizes.proper {N : Nest} {code ss lin : List Ir.Stmt} {n n' : Names}
    (h : Linearizes n ss lin n') (hss : ∀ st ∈ ss, st.Proper N code) :
    (∀ st ∈ lin, st.Proper N code) ∧
      ∀ t src, Ir.Stmt.move (.temp t) src ∈ ss → Ir.Stmt.move (.temp t) src ∈ lin := by
  induction h with
  | nil => exact ⟨List.forall_mem_nil _, fun _ _ hmem => hmem⟩
  | branch _ ih =>
    obtain ⟨hst, hrest⟩ := List.forall_mem_cons.mp hss
    obtain ⟨hproper, hmoves⟩ := ih hrest
    simp only [List.forall_mem_cons]
    refine ⟨⟨⟨hst.calls, nofun⟩, Ir.proper_label _, Ir.proper_jump _, hproper⟩,
      fun t src hmem => ?_⟩
    rcases List.mem_cons.mp hmem with hmem | hmem
    · cases hmem
    · exact List.mem_cons_of_mem _
        (List.mem_cons_of_mem _ (List.mem_cons_of_mem _ (hmoves t src hmem)))
  | other _ _ ih =>
    obtain ⟨hst, hrest⟩ := List.forall_mem_cons.mp hss
    obtain ⟨hproper, hmoves⟩ := ih hrest
    refine ⟨List.forall_mem_cons.mpr ⟨hst, hproper⟩, fun t src hmem => ?_⟩
    exact (List.mem_cons.mp hmem).elim (fun heq => heq ▸ List.mem_cons_self)
      fun hmem => List.mem_cons_of_mem _ (hmoves t src hmem)

/-- The chunk of a function: no temporary is moved into at two places, that of the frame pointer at
none, and calls and stores are as the function's place in the program has it. -/
structure CodeChunk.Proper (N : Nest) (c : CodeChunk) : Prop where
  frame : c.frame = N.frame
  once : ∀ t src src', Ir.Stmt.move (.temp t) src ∈ c.stmts →
    Ir.Stmt.move (.temp t) src' ∈ c.stmts → src = src'
  kept : ∀ src, Ir.Stmt.move (.temp N.frame.fp) src ∉ c.stmts
  code : ∀ st ∈ c.stmts, st.Proper N c.stmts

theorem CodeChunk.build_proper {layout : Layout} {code : Lowered} {head : Head} {body : Expr}
    {s s' : Session} {c : CodeChunk} {N : Nest}
    (h : CodeChunk.build layout code head body s = .ok c s')
    (hvalue : ∀ value, code.exprs[body.id]? = some value → value.Sited N)
    (hframe : c.frame = N.frame) (hrv : s.names.HasTemp c.frame.rv)
    (hkept : c.frame.fp ∉ Ir.Stmt.listTargets c.stmts) : c.Proper N := by
  obtain ⟨value, flat, s₁, -, hv, hflat, hstmts, -⟩ := CodeChunk.build_ok h
  obtain ⟨pre, val, hval, rfl⟩ := Ir.Stmt.canonize_set hflat
  obtain ⟨hord, hhandled⟩ := (Ir.Expr.canonizes hval).orderly (hvalue value hv)
  have hset := hord.setDrawn hhandled (Ir.Expr.canonizes hval).le
  generalize hcode : pre ++ [Ir.Stmt.move (.temp ⟨s.marked.names.temps⟩) val] = code₁ at hset
  have hall : ∀ st ∈ (Ir.Stmt.label c.entry :: (code₁ ++
      [.move (.temp c.frame.rv) (.temp ⟨s.marked.names.temps⟩)]) ++ [.jump c.exit]),
      st.Proper N code₁ := by
    simp only [List.cons_append, List.forall_mem_cons, List.forall_mem_append]
    exact ⟨Ir.proper_label _, ⟨hset.proper, Ir.proper_set (Ir.handled_temp _ _ _),
      List.forall_mem_nil _⟩, Ir.proper_jump _, List.forall_mem_nil _⟩
  rw [show pre ++ [Ir.Stmt.move (.temp ⟨s.marked.names.temps⟩) val,
      .move (.temp c.frame.rv) (.temp ⟨s.marked.names.temps⟩)] = code₁ ++
      [.move (.temp c.frame.rv) (.temp ⟨s.marked.names.temps⟩)] by rw [← hcode]; simp] at hstmts
  obtain ⟨hproper, hmoves⟩ := hstmts.proper hall
  have htargets : Ir.Stmt.listTargets c.stmts = Ir.Stmt.listTargets code₁ ++ [c.frame.rv] := by
    rw [hstmts.temps.2.1]
    simp [Ir.Stmt.listTargets, Ir.Stmt.targets, Ir.Stmt.listTargets_append]
  have hnodup : (Ir.Stmt.listTargets c.stmts).Nodup := by
    rw [htargets]
    refine List.nodup_append.mpr ⟨hset.once, List.nodup_singleton _, fun t ht u hu heq => ?_⟩
    obtain rfl := List.mem_singleton.mp hu
    subst heq
    exact Nat.lt_irrefl _ (Nat.lt_of_lt_of_le hrv (hset.drawn _ ht).1)
  refine ⟨hframe, fun t src src' => Ir.eq_of_nodup_targets hnodup, fun src hmem => hkept ?_,
    fun st hst => (hproper st hst).mono fun t src hmem => hmoves t src (by simp [hmem])⟩
  obtain ⟨before, rest, hsplit⟩ := List.append_of_mem hmem
  rw [hsplit, Ir.Stmt.listTargets_append, hframe]
  exact List.mem_append_right _ List.mem_cons_self

/-- Under the label of each function with a body the machine has its code, which calls and stores as
the function's place in the program has it. -/
theorem Typed.Program.Lexical.bodies {p : Program} {s₀ s : Session} {c : Compiled}
    (hp : p.Lexical) (hw : p.WellNamed) (h : p.compile s₀ = .ok c s) {l : Label} {b : Machine.Body}
    (hb : (loadedBodies c.chunks)[l]? = some b) :
    ∃ around head e, Item.function around head (some e) ∈ p.items ∧ b.chunk.frame.label = l ∧
      Layouting.Furnished c.layout around head (some e) b.chunk.frame ∧
      b.chunk.Proper ⟨p, c.layout, head :: around, b.chunk.frame⟩ ∧
      b = Machine.Body.ofChunk b.chunk := by
  obtain ⟨s₁, s₂, hlayout, hlower, hchunks⟩ := Program.compile_ok h
  have hlabel : b.chunk.frame.label = l := by
    rcases Program.compile_linked h hp.nodes l with ⟨hnone, -⟩ | ⟨body, frame, e, hbody, ht, hcodes⟩
    · cases hnone.symm.trans hb
    · cases hbody.symm.trans hb
      rcases mem_enter ht with hnone | ⟨head, -, -, hl⟩
      · simp at hnone
      · rw [hcodes.chunk, hl]
  obtain ⟨chunk, hchunk, rfl⟩ := mem_of_loadedBodies hb
  have hle : s₁.names ≤ s₂.names := (Lowering.functions_lowers hlower).change.names
  obtain ⟨f, hf, r, r', hbuild, hler, -⟩ :=
    exists_rel_of_mem (Program.chunksOf hchunks).code chunk hchunk
  obtain ⟨around, hitem⟩ := Program.exists_item hf
  obtain ⟨frame, hfurnished⟩ := hp.furnished h hitem
  obtain ⟨_, _, _, hown, -⟩ := CodeChunk.build_ok hbuild
  obtain rfl : chunk.frame = frame := Option.some.inj (hown.symm.trans hfurnished.frame)
  have hmade := Layouting.made_of_frame hlayout hp.functions hitem hown
  refine ⟨around, f.1, f.2, hitem, hlabel, hfurnished, ?_, rfl⟩
  refine CodeChunk.build_proper hbuild (fun value hvalue => hp.sited hw h hitem hfurnished hvalue)
    rfl ?_ (Program.compile_drawn h hp.nodes hp.functions chunk hchunk).1.kept
  exact (hmade.mono (Names.le_trans hle hler)).rv

end MmixBackend
