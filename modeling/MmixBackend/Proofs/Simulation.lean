import MmixBackend.Proofs.Allocation

/-!
# Registers instead of temporaries

Abstract code can be executed over temporaries, or over registers with each temporary replaced by
the one it got.  What an instruction does with the values it reads is left open: a semantics says
which effects are possible, and nothing is assumed of it but that an instruction reads what it
uses, writes what it defines, and goes where it says.

Executions over an allocation's registers and over its temporaries are the same as long as the
registers hold the values of the temporaries that are live.  One step keeps this up: what is
written shares no register with anything else that is live afterwards.
-/

namespace MmixBackend

/-! ## Executions of abstract code -/

/-- What an instruction did. -/
structure Effect (V M : Type) where
  /-- The values of what it writes, in order. -/
  written : List V
  /-- The state of the machine, apart from what it writes. -/
  state : M
  /-- Where control goes, if not to the next instruction. -/
  target : Option Label

/-- What instructions can do with the values of what they use and the state of the machine. -/
structure Semantics (V M : Type) where
  does : Instr → List V → M → Effect V M → Prop
  written : ∀ {i vs m e}, does i vs m e → e.written.length = i.defs.length
  next : ∀ {i vs m e}, does i vs m e → i.jumps.isEmpty || i.isCall → e.target = none
  jump : ∀ {i vs m e}, does i vs m e → ¬ (i.jumps.isEmpty || i.isCall) →
    ∃ l ∈ i.jumps, e.target = some l

/-- A moment of an execution: the next instruction or the exit, the values at hand, and the state
of the machine. -/
structure Moment (κ V M : Type) where
  place : Successor
  values : κ → V
  state : M

/-- Values after writes, one after another. -/
def writeAll {κ V : Type} [DecidableEq κ] (values : κ → V) : List κ → List V → κ → V
  | k :: ks, v :: vs => writeAll (fun j => if j = k then v else values j) ks vs
  | _, _ => values

/-- Where control goes from a position. -/
def Code.goTo? (c : Code) (i : Nat) : Option Label → Option Successor
  | none => if i + 1 < c.instrs.length then some (.instr (i + 1)) else none
  | some l => c.target? (labelsFrom 0 ∅ c.instrs) l

namespace Semantics

variable {κ V M : Type} [DecidableEq κ]

/-- One instruction, with each temporary kept where `holder` says. -/
inductive Step (sem : Semantics V M) (c : Code) (holder : Temp → Option κ) :
    Moment κ V M → Moment κ V M → Prop
  | mk {i : Nat} {instr : Instr} {values : κ → V} {m : M} {us ds : List κ} {e : Effect V M}
      {p : Successor} (hinstr : c.instrs[i]? = some instr)
      (huses : instr.uses.map holder = us.map some) (hdefs : instr.defs.map holder = ds.map some)
      (hdoes : sem.does instr (us.map values) m e) (hgo : c.goTo? i e.target = some p) :
      Step sem c holder ⟨.instr i, values, m⟩ ⟨p, writeAll values ds e.written, e.state⟩

/-- Instructions one after another, with the places passed and the states of the machine there. -/
inductive Run (sem : Semantics V M) (c : Code) (holder : Temp → Option κ) :
    Moment κ V M → List (Successor × M) → Moment κ V M → Prop
  | stop {x : Moment κ V M} : Run sem c holder x [] x
  | step {x y z : Moment κ V M} {trace : List (Successor × M)} (hstep : Step sem c holder x y)
      (hrun : Run sem c holder y trace z) :
      Run sem c holder x ((y.place, y.state) :: trace) z

end Semantics

/-! ## Where control goes -/

theorem Code.goTo?_next {c : Code} {i : Nat} (h : i + 1 < c.instrs.length) :
    c.goTo? i none = some (.instr (i + 1)) := if_pos h

theorem Code.goTo?_exit {c : Code} {i : Nat} {l : Label} (h : l = c.exit) :
    c.goTo? i (some l) = some .exit := if_pos h

theorem Semantics.mem_successors {V M : Type} {sem : Semantics V M} {c : Code} {i : Nat}
    {instr : Instr} {vs : List V} {m : M} {e : Effect V M} {p : Successor}
    (hinstr : c.instrs[i]? = some instr) (hdoes : sem.does instr vs m e)
    (hgo : c.goTo? i e.target = some p) : p ∈ c.flow.successors.getD i [] := by
  rw [Code.flow_successors hinstr, Code.successorsAt]
  split
  · next hnext =>
    rw [sem.next hdoes hnext, Code.goTo?] at hgo
    split at hgo
    · next hlt =>
      cases hgo
      rw [if_pos hlt]
      exact List.mem_singleton_self _
    · cases hgo
  · next hjump =>
    obtain ⟨l, hl, htarget⟩ := sem.jump hdoes hjump
    rw [htarget] at hgo
    exact List.mem_filterMap.mpr ⟨l, hl, hgo⟩

/-- Where instructions have one effect, executions of one length from one moment end the same. -/
theorem Semantics.Run.unique {κ V M : Type} [DecidableEq κ] {sem : Semantics V M} {c : Code}
    {holder : Temp → Option κ}
    (hdet : ∀ {i vs m e e'}, sem.does i vs m e → sem.does i vs m e' → e = e')
    {x y y' : Moment κ V M} {trace : List (Successor × M)} (hrun : sem.Run c holder x trace y)
    (hrun' : sem.Run c holder x trace y') : y' = y := by
  induction hrun with
  | stop =>
    cases hrun'
    rfl
  | @step x y z trace hstep _ ih =>
    generalize htrace : (y.place, y.state) :: trace = trace' at hrun'
    cases hrun' with
    | stop => cases htrace
    | @step _ y₁ _ trace₁ hstep₁ hrun₁ =>
      obtain ⟨-, rfl⟩ := List.cons.inj htrace
      have heq : y₁ = y := by
        cases hstep with
        | mk hinstr huses hdefs hdoes hgo =>
          cases hstep₁ with
          | mk hinstr₁ huses₁ hdefs₁ hdoes₁ hgo₁ =>
            cases hinstr.symm.trans hinstr₁
            cases List.map_injective_iff.mpr (fun _ _ => Option.some.inj)
              (huses.symm.trans huses₁)
            cases List.map_injective_iff.mpr (fun _ _ => Option.some.inj)
              (hdefs.symm.trans hdefs₁)
            cases hdet hdoes hdoes₁
            cases hgo.symm.trans hgo₁
            rfl
      exact ih (heq ▸ hrun₁)

/-! ## Writing -/

/-- Writes go the same way for a temporary and what holds it, provided that nothing else that is
written is held there. -/
theorem writeAll_agree {κ V : Type} [DecidableEq κ] {holder : Temp → Option κ} {t : Temp} {r : κ}
    (hr : holder t = some r) :
    ∀ {defs : List Temp} {ds : List κ} {vs : List V} {σ : Temp → V} {ρ : κ → V},
      defs.map holder = ds.map some → vs.length = defs.length →
      (∀ d ∈ defs, d ≠ t → holder d ≠ some r) → t ∈ defs ∨ ρ r = σ t →
      writeAll ρ ds vs r = writeAll σ defs vs t := by
  intro defs
  induction defs with
  | nil =>
    intro ds vs σ ρ hds hlen _ hagree
    obtain rfl : ds = [] := by simpa using hds.symm
    obtain rfl : vs = [] := by simpa using hlen
    exact hagree.resolve_left (by simp)
  | cons d defs ih =>
    intro ds vs σ ρ hds hlen hapart hagree
    cases ds with
    | nil => cases hds
    | cons k ds =>
      cases vs with
      | nil => cases hlen
      | cons v vs =>
        obtain ⟨hd, hds⟩ := List.cons.inj hds
        refine ih hds (by simpa using hlen)
          (fun d' hd' => hapart d' (List.mem_cons_of_mem _ hd')) ?_
        by_cases hdt : d = t
        · -- written just now, to both
          subst hdt
          obtain rfl : r = k := Option.some.inj (hr.symm.trans hd)
          exact Or.inr (by simp)
        · have hkr : r ≠ k := by
            rintro rfl
            exact hapart d List.mem_cons_self hdt hd
          rcases hagree with hmem | heq
          · exact Or.inl ((List.mem_cons.mp hmem).resolve_left (Ne.symm hdt))
          · exact Or.inr (by simp [hkr, Ne.symm hdt, heq])

/-! ## Agreement on what is live -/

section Holders

variable {V : Type} {holder : Temp → Option Nat} {σ : Temp → V} {ρ : Nat → V}

theorem exists_holders {ts : List Temp} (h : ∀ t ∈ ts, (holder t).isSome) :
    ∃ rs : List Nat, ts.map holder = rs.map some := by
  refine ⟨ts.map fun t => (holder t).getD 0, ?_⟩
  rw [List.map_map]
  refine List.map_congr_left fun t ht => ?_
  obtain ⟨r, hr⟩ := Option.isSome_iff_exists.mp (h t ht)
  simp [hr]

theorem map_values_eq :
    ∀ {ts : List Temp} {rs : List Nat}, ts.map holder = rs.map some →
      (∀ t ∈ ts, ∀ r, holder t = some r → ρ r = σ t) → rs.map ρ = ts.map σ := by
  intro ts
  induction ts with
  | nil =>
    intro rs hrs _
    obtain rfl : rs = [] := by simpa using hrs.symm
    rfl
  | cons t ts ih =>
    intro rs hrs hagree
    cases rs with
    | nil => cases hrs
    | cons r rs =>
      obtain ⟨ht, hrs⟩ := List.cons.inj hrs
      rw [List.map_cons, List.map_cons, hagree t List.mem_cons_self r ht,
        ih hrs fun u hu => hagree u (List.mem_cons_of_mem _ hu)]

end Holders

namespace Allocation

variable {V M : Type} {a : Allocation} {k : Nat} {repair : TempSet} {sem : Semantics V M}
  {σ σ' : Temp → V} {ρ ρ' : Nat → V} {m m' : M} {i : Nat} {instr : Instr} {p p' : Successor}

/-- The registers of the temporaries that are live at a place hold their values. -/
def Agrees (a : Allocation) (p : Successor) (σ : Temp → V) (ρ : Nat → V) : Prop :=
  ∀ t ∈ a.code.flow.liveAt a.code.liveness.liveIn p, ∀ r, a.register? t = some r → ρ r = σ t

/-- An instruction reads the same values from registers as from temporaries. -/
theorem Agrees.uses (h : a.Agrees (.instr i) σ ρ) (hinstr : a.code.instrs[i]? = some instr) :
    ∀ t ∈ instr.uses, ∀ r, a.register? t = some r → ρ r = σ t := by
  intro t ht r hr
  refine h t ?_ r hr
  have hsolved := a.code.liveness_solved
  show t ∈ a.code.liveness.liveIn.getD i ∅
  rw [hsolved.inn i instr (by rwa [Code.flow_instrs])]
  exact Instr.mem_through.mpr (Or.inl ht)

/-- One instruction with the same effect keeps up the agreement. -/
theorem Settled.agrees_step (hs : a.Settled k repair) (hk : k ≤ Register.fp)
    (h : a.Agrees (.instr i) σ ρ) (hinstr : a.code.instrs[i]? = some instr) {vs : List V}
    {e : Effect V M} (hdoes : sem.does instr vs m e) (hgo : a.code.goTo? i e.target = some p)
    {ds : List Nat} (hds : instr.defs.map a.register? = ds.map some) :
    a.Agrees p (writeAll σ instr.defs e.written) (writeAll ρ ds e.written) := by
  have hsolved := a.code.liveness_solved
  have hi : i < a.code.flow.instrs.size := by
    rw [Code.flow_instrs_size]
    exact (List.getElem?_eq_some_iff.mp hinstr).1
  intro t ht r hr
  -- what is live there is live after the instruction
  have hout : t ∈ a.code.liveness.liveOut.getD i ∅ := by
    rw [hsolved.out i hi]
    exact Flow.mem_out.mpr ⟨p, Semantics.mem_successors hinstr hdoes hgo, ht⟩
  refine writeAll_agree hr hds (sem.written hdoes) (fun d hd hne hdr => ?_) ?_
  · exact hs.apart hk hinstr hd hout (Ne.symm hne) (hdr.trans hr.symm)
  · by_cases hd : t ∈ instr.defs
    · exact Or.inl hd
    · refine Or.inr (h t ?_ r hr)
      show t ∈ a.code.liveness.liveIn.getD i ∅
      rw [hsolved.inn i instr (by rwa [Code.flow_instrs])]
      exact Instr.mem_through.mpr (Or.inr ⟨hd, hout⟩)

theorem Settled.forward_step (hs : a.Settled k repair) (hk : k ≤ Register.fp)
    (h : a.Agrees p σ ρ) (hstep : sem.Step a.code some ⟨p, σ, m⟩ ⟨p', σ', m'⟩) :
    ∃ ρ', sem.Step a.code a.register? ⟨p, ρ, m⟩ ⟨p', ρ', m'⟩ ∧ a.Agrees p' σ' ρ' := by
  cases hstep with
  | @mk i instr _ _ us ds e _ hinstr huses hdefs hdoes hgo =>
    obtain rfl := List.map_injective_iff.mpr (fun _ _ => Option.some.inj) huses
    obtain rfl := List.map_injective_iff.mpr (fun _ _ => Option.some.inj) hdefs
    have hmem := List.mem_of_getElem? hinstr
    obtain ⟨urs, hur⟩ := exists_holders fun t (ht : t ∈ instr.uses) =>
      hs.mentions ⟨instr, hmem, Or.inl ht⟩
    obtain ⟨drs, hdr⟩ := exists_holders fun t (ht : t ∈ instr.defs) =>
      hs.mentions ⟨instr, hmem, Or.inr ht⟩
    rw [← map_values_eq hur (h.uses hinstr)] at hdoes
    exact ⟨_, .mk hinstr hur hdr hdoes hgo, hs.agrees_step hk h hinstr hdoes hgo hdr⟩

theorem Settled.backward_step (hs : a.Settled k repair) (hk : k ≤ Register.fp)
    (h : a.Agrees p σ ρ) (hstep : sem.Step a.code a.register? ⟨p, ρ, m⟩ ⟨p', ρ', m'⟩) :
    ∃ σ', sem.Step a.code some ⟨p, σ, m⟩ ⟨p', σ', m'⟩ ∧ a.Agrees p' σ' ρ' := by
  cases hstep with
  | @mk i instr _ _ us ds e _ hinstr huses hdefs hdoes hgo =>
    rw [map_values_eq huses (h.uses hinstr)] at hdoes
    exact ⟨_, .mk hinstr rfl rfl hdoes hgo, hs.agrees_step hk h hinstr hdoes hgo hdefs⟩

theorem Settled.forward (hs : a.Settled k repair) (hk : k ≤ Register.fp)
    {x y : Moment Temp V M} {trace : List (Successor × M)} (hrun : sem.Run a.code some x trace y) :
    ∀ {ρ : Nat → V}, a.Agrees x.place x.values ρ →
      ∃ ρ', sem.Run a.code a.register? ⟨x.place, ρ, x.state⟩ trace ⟨y.place, ρ', y.state⟩ ∧
        a.Agrees y.place y.values ρ' := by
  induction hrun with
  | stop => exact fun h => ⟨_, .stop, h⟩
  | step hstep _ ih =>
    intro ρ h
    obtain ⟨ρ₁, hstep', h₁⟩ := hs.forward_step hk h hstep
    obtain ⟨ρ', hrun', h'⟩ := ih h₁
    exact ⟨ρ', .step hstep' hrun', h'⟩

theorem Settled.backward (hs : a.Settled k repair) (hk : k ≤ Register.fp)
    {x y : Moment Nat V M} {trace : List (Successor × M)}
    (hrun : sem.Run a.code a.register? x trace y) :
    ∀ {σ : Temp → V}, a.Agrees x.place σ x.values →
      ∃ σ', sem.Run a.code some ⟨x.place, σ, x.state⟩ trace ⟨y.place, σ', y.state⟩ ∧
        a.Agrees y.place σ' y.values := by
  induction hrun with
  | stop => exact fun h => ⟨_, .stop, h⟩
  | step hstep _ ih =>
    intro σ h
    obtain ⟨σ₁, hstep', h₁⟩ := hs.backward_step hk h hstep
    obtain ⟨σ', hrun', h'⟩ := ih h₁
    exact ⟨σ', .step hstep' hrun', h'⟩

/-- The register of the return value holds it. -/
def Returns (a : Allocation) (σ : Temp → V) (ρ : Nat → V) : Prop :=
  ∃ r, a.register? a.code.frame.rv = some r ∧ ρ r = σ a.code.frame.rv

/-- At the exit the return value is live unless it has a slot. -/
theorem Agrees.returns (h : a.Agrees .exit σ ρ) (hs : a.Settled k repair)
    (hslot : a.code.frame.rv ∉ a.code.slots) : a.Returns σ ρ := by
  have hlive : a.code.frame.rv ∈ a.code.liveAtExit := Code.mem_liveAtExit.mpr ⟨rfl, hslot⟩
  have hsome : (a.register? a.code.frame.rv).isSome := by
    by_cases hfp : a.code.frame.rv = a.code.frame.fp
    · rw [hs.register?_eq, if_pos hfp]
      rfl
    · rw [hs.isSome_register? hfp]
      exact Code.mem_vertices_interference.mpr (Or.inr hlive)
  obtain ⟨r, hr⟩ := Option.isSome_iff_exists.mp hsome
  exact ⟨r, hr, h _ hlive r hr⟩

end Allocation

/-- An allocation's code does over registers what it does over temporaries: from registers that hold
what is live at the start, each execution of the one is one of the other, through the same places
and states, and at the exit the register of the return value holds it unless it has a slot.  When
nothing was spilled before, the return value has a slot just when it has no register. -/
theorem Code.allocate_simulates {c : Code} {k : Nat} {st st' : Session} {a : Allocation}
    (h : c.allocate k st = .ok a st') {V M : Type} (sem : Semantics V M) {σ : Temp → V}
    {ρ : Nat → V} (m : M)
    (hstart : ∀ t ∈ a.liveness.liveIn.getD 0 ∅, ∀ r, a.register? t = some r → ρ r = σ t) :
    (∀ trace p σ' m', sem.Run a.code some ⟨.instr 0, σ, m⟩ trace ⟨p, σ', m'⟩ →
      ∃ ρ', sem.Run a.code a.register? ⟨.instr 0, ρ, m⟩ trace ⟨p, ρ', m'⟩ ∧
        (p = .exit → a.code.frame.rv ∉ a.code.slots → a.Returns σ' ρ')) ∧
    (∀ trace p ρ' m', sem.Run a.code a.register? ⟨.instr 0, ρ, m⟩ trace ⟨p, ρ', m'⟩ →
      ∃ σ', sem.Run a.code some ⟨.instr 0, σ, m⟩ trace ⟨p, σ', m'⟩ ∧
        (p = .exit → a.code.frame.rv ∉ a.code.slots → a.Returns σ' ρ')) ∧
    ((∀ t ∈ c.temps, st.names.HasTemp t) → c.frame.fp ≠ c.frame.rv →
      (∀ i ∈ c.instrs, c.frame.fp ∉ i.defs) → c.slots = ∅ →
      ((a.register? a.code.frame.rv).isSome ↔ a.code.frame.rv ∉ a.code.slots)) := by
  obtain ⟨-, hlt, hrounds⟩ := allocate_ok h
  obtain ⟨repair, hs⟩ := allocateRounds_settled hrounds
  have hk : k ≤ Register.fp := Nat.le_of_lt (Nat.lt_trans hlt (by decide))
  have hagree : a.Agrees (.instr 0) σ ρ := by
    rw [hs.liveness] at hstart
    exact hstart
  refine ⟨fun trace p σ' m' hrun => ?_, fun trace p ρ' m' hrun => ?_,
    fun hnames hne hfp hslots => ?_⟩
  · obtain ⟨ρ', hrun', hend⟩ := hs.forward hk hrun hagree
    exact ⟨ρ', hrun', fun hp hslot => (hp ▸ hend : a.Agrees .exit σ' ρ').returns hs hslot⟩
  · obtain ⟨σ', hrun', hend⟩ := hs.backward hk hrun hagree
    exact ⟨σ', hrun', fun hp hslot => (hp ▸ hend : a.Agrees .exit σ' ρ').returns hs hslot⟩
  · have htidy : c.Tidy st.names := ⟨hnames, by simp [hslots], hfp⟩
    obtain ⟨hta, hframe⟩ := htidy.allocateRounds hne hrounds
    exact hs.isSome_register?_rv hta (hframe ▸ hne)

/-- Constants and sums: anything else that is written is zero, and jumps go to the first label. -/
def sums : Semantics Nat Unit where
  does i vs _ e :=
    e.written = i.defs.map (fun _ =>
      match i with
      | .oper (.setLow n) .. => n
      | .oper (.arith .add) .. => vs.foldr (· + ·) 0
      | _ => 0) ∧
    e.target = if i.jumps.isEmpty || i.isCall then none else i.jumps.head?
  written h := by simp [h.1]
  next h hn := by rw [h.2, if_pos hn]
  jump {i vs m e} h hj := by
    rw [h.2, if_neg hj]
    cases hl : i.jumps with
    | nil => simp [hl] at hj
    | cons l ls => exact ⟨l, by simp, rfl⟩

/-- Two constants and their sum. -/
def addition : Code where
  name := "_addition"
  frame := ⟨⟨0⟩, 0, 0, 0, 0, ⟨0⟩, ⟨1⟩⟩
  entry := ⟨1⟩
  exit := ⟨2⟩
  instrs := [
    .oper (.setLow 20) [] [⟨2⟩] [], .oper (.setLow 22) [] [⟨3⟩] [],
    .oper (.arith .add) [⟨2⟩, ⟨3⟩] [⟨1⟩] [], .oper (.jump "L2") [] [] [⟨2⟩]]

theorem run_addition {c : Code} (hinstrs : c.instrs = addition.instrs)
    (hexit : c.exit = addition.exit) :
    ∃ trace σ', sums.Run c some ⟨.instr 0, fun _ => 0, ()⟩ trace ⟨.exit, σ', ()⟩ ∧ σ' ⟨1⟩ = 42 := by
  have hnext : ∀ i < 3, c.goTo? i none = some (.instr (i + 1)) := by
    intro i hi
    exact Code.goTo?_next (by rw [hinstrs]; exact Nat.succ_lt_succ hi)
  have hlast : c.goTo? 3 (some ⟨2⟩) = some .exit := Code.goTo?_exit hexit.symm
  have hget : ∀ i : Nat, c.instrs[i]? = addition.instrs[i]? := fun i => by rw [hinstrs]
  refine ⟨_, _, .step (.mk (i := 0) (e := ⟨[20], (), none⟩) (hget 0) rfl rfl ⟨rfl, rfl⟩
      (hnext 0 (by decide)))
    (.step (.mk (i := 1) (e := ⟨[22], (), none⟩) (hget 1) rfl rfl ⟨rfl, rfl⟩ (hnext 1 (by decide)))
    (.step (.mk (i := 2) (e := ⟨[42], (), none⟩) (hget 2) rfl rfl ⟨rfl, rfl⟩ (hnext 2 (by decide)))
    (.step (.mk (i := 3) (e := ⟨[], (), some ⟨2⟩⟩) (hget 3) rfl rfl ⟨rfl, rfl⟩ hlast) .stop))), ?_⟩
  rfl


/-- Its registers hold the sum of the constants at the exit, whatever they held at the start. -/
theorem Code.allocate_simulates_addition :
    ∃ a st', addition.allocate 3 { names := { temps := 4 } } = .ok a st' ∧
      ∀ ρ : Nat → Nat, ∃ trace ρ' r,
        sums.Run a.code a.register? ⟨.instr 0, ρ, ()⟩ trace ⟨.exit, ρ', ()⟩ ∧
          a.register? ⟨1⟩ = some r ∧ ρ' r = 42 := by
  have hrun : ∃ a st', addition.allocate 3 { names := { temps := 4 } } = .ok a st' ∧
      a.code.instrs = addition.instrs ∧ a.code.exit = addition.exit ∧
      a.code.frame.rv = ⟨1⟩ ∧ ¬ a.code.frame.rv ∈ a.code.slots ∧
      a.liveness.liveIn.getD 0 ∅ = ∅ := by
    decide +kernel
  obtain ⟨a, st', h, hinstrs, hexit, hrv, hslot, hlive⟩ := hrun
  obtain ⟨trace, σ', hrun, hsum⟩ := run_addition hinstrs hexit
  refine ⟨a, st', h, fun ρ => ?_⟩
  obtain ⟨ρ', hrun', hret⟩ :=
    (Code.allocate_simulates h sums () (by rw [hlive]; simp)).1 trace .exit σ' () hrun
  obtain ⟨r, hr, heq⟩ := hret rfl hslot
  rw [hrv] at hr heq
  exact ⟨trace, ρ', r, hrun', hr, heq.trans hsum⟩

/-- The return value has a slot from the start and is written all the same. -/
def parked : Code where
  name := "_parked"
  frame := ⟨⟨0⟩, 0, 0, 0, 0, ⟨0⟩, ⟨1⟩⟩
  entry := ⟨1⟩
  exit := ⟨2⟩
  instrs := [
    .oper (.setLow 1) [] [⟨1⟩] [], .oper (.setLow 2) [] [⟨2⟩] [], .oper (.jump "L2") [] [] [⟨2⟩]]
  slots := (∅ : Table Temp Word).insert ⟨1⟩ 0

theorem sums_unique {i : Instr} {vs : List Nat} {m : Unit} {e e' : Effect Nat Unit}
    (h : sums.does i vs m e) (h' : sums.does i vs m e') : e = e' := by
  obtain ⟨w, s, t⟩ := e
  obtain ⟨w', s', t'⟩ := e'
  obtain ⟨rfl, rfl⟩ := h
  obtain ⟨rfl, rfl⟩ := h'
  rfl

theorem run_parked {c : Code} (hinstrs : c.instrs = parked.instrs) (hexit : c.exit = parked.exit)
    {κ : Type} [DecidableEq κ] {holder : Temp → Option κ} {x y : κ} (hx : holder ⟨1⟩ = some x)
    (hy : holder ⟨2⟩ = some y) (values : κ → Nat) :
    sums.Run c holder ⟨.instr 0, values, ()⟩ [(.instr 1, ()), (.instr 2, ()), (.exit, ())]
      ⟨.exit, writeAll values [x, y] [1, 2], ()⟩ := by
  have hnext : ∀ i < 2, c.goTo? i none = some (.instr (i + 1)) := by
    intro i hi
    exact Code.goTo?_next (by rw [hinstrs]; exact Nat.succ_lt_succ hi)
  have hlast : c.goTo? 2 (some ⟨2⟩) = some .exit := Code.goTo?_exit hexit.symm
  have hget : ∀ i : Nat, c.instrs[i]? = parked.instrs[i]? := fun i => by rw [hinstrs]
  have hnone : ([] : List Temp).map holder = ([] : List κ).map some := rfl
  have hone : [(⟨1⟩ : Temp)].map holder = [x].map some := by simp [hx]
  have htwo : [(⟨2⟩ : Temp)].map holder = [y].map some := by simp [hy]
  have h₀ : sums.Step c holder ⟨.instr 0, values, ()⟩ ⟨.instr 1, writeAll values [x] [1], ()⟩ :=
    .mk (e := ⟨[1], (), none⟩) (hget 0) hnone hone ⟨rfl, rfl⟩ (hnext 0 (by decide))
  have h₁ : sums.Step c holder ⟨.instr 1, writeAll values [x] [1], ()⟩
      ⟨.instr 2, writeAll values [x, y] [1, 2], ()⟩ :=
    .mk (e := ⟨[2], (), none⟩) (hget 1) hnone htwo ⟨rfl, rfl⟩ (hnext 1 (by decide))
  have h₂ : sums.Step c holder ⟨.instr 2, writeAll values [x, y] [1, 2], ()⟩
      ⟨.exit, writeAll values [x, y] [1, 2], ()⟩ :=
    .mk (e := ⟨[], (), some ⟨2⟩⟩) (hget 2) hnone hnone ⟨rfl, rfl⟩ hlast
  exact .step h₀ (.step h₁ (.step h₂ .stop))

/-- A return value with a slot may have a register as well, and the register need not hold it at
the exit: another temporary has taken it over. -/
theorem Code.parked_register_overwritten :
    (∀ i ∈ parked.instrs, parked.frame.fp ∉ i.defs) ∧
      ∃ a st' r, parked.allocate 3 { names := { temps := 3 } } = .ok a st' ∧
        a.register? a.code.frame.rv = some r ∧
        ∃ trace σ', sums.Run a.code some ⟨.instr 0, fun _ => 0, ()⟩ trace ⟨.exit, σ', ()⟩ ∧
          ¬ ∃ ρ', sums.Run a.code a.register? ⟨.instr 0, fun _ => 0, ()⟩ trace ⟨.exit, ρ', ()⟩ ∧
            ρ' r = σ' a.code.frame.rv := by
  have hrun : ∃ a st', parked.allocate 3 { names := { temps := 3 } } = .ok a st' ∧
      a.code.instrs = parked.instrs ∧ a.code.exit = parked.exit ∧ a.code.frame.rv = ⟨1⟩ ∧
      a.register? ⟨1⟩ = some 0 ∧ a.register? ⟨2⟩ = some 0 := by
    decide +kernel
  obtain ⟨a, st', h, hinstrs, hexit, hrv, h₁, h₂⟩ := hrun
  refine ⟨by decide, a, st', 0, h, hrv ▸ h₁, _, _, run_parked hinstrs hexit rfl rfl _, ?_⟩
  rintro ⟨ρ', hrun, heq⟩
  cases (run_parked hinstrs hexit h₁ h₂ _).unique sums_unique hrun
  rw [hrv] at heq
  exact absurd heq (by decide)

end MmixBackend
