import MmixBackend.Proofs.Coloring
import MmixBackend.Proofs.Spilling

/-!
# Allocations are valid

Allocation goes round by round: the code is coloured, and if temporaries are left without a
colour they are spilled and the next round starts with the new code.  The last round leaves none,
and the code it works on is the code of the allocation.  So its registers are the colours of that
code's graph, whatever came before, and code that was tidy at the start is tidy at the end.
-/

namespace MmixBackend

namespace Code

variable {c c' : Code} {k limit remaining round : Nat} {repair repair' : TempSet}
  {st st' : Session} {a : Allocation}

/-! ## Rounds -/

/-- The coloured graph of code, and the temporaries that are left without a colour. -/
def colored (c : Code) (k : Nat) (repair : TempSet) : Interference × List Temp :=
  let g := c.interference c.liveness
  g.paint k (g.simplify k repair)

/-- The notes of a round. -/
abbrev noted (c : Code) (k round : Nat) (repair : TempSet) (st : Session) : Session :=
  { st with
    notes :=
      .colored c.name (round + 1) (c.colored k repair).1.size (c.colored k repair).2.length ::
        .settled c.name c.liveness.passes :: st.notes }

/-- A round that leaves nothing without a colour ends the allocation. -/
theorem allocateRounds_done (h : (c.colored k repair).2 = []) :
    allocateRounds k limit (remaining + 1) round c repair st =
      .ok { code := c
            registers := (c.colored k repair).1.registers c.frame.fp
            liveness := c.liveness
            rounds := round + 1 } (c.noted k round repair st) := by
  rw [colored] at h
  rw [allocateRounds]
  simp only [bind, EStateM.bind, Build.note_eq, h, List.isEmpty_nil, if_true, pure, EStateM.pure,
    noted, colored]

theorem allocateRounds_spill (h : (c.colored k repair).2 ≠ []) :
    allocateRounds k limit (remaining + 1) round c repair st =
      match c.spillAll repair (c.colored k repair).2 (c.noted k round repair st) with
      | .error e st' => .error e st'
      | .ok (c', repair') st' =>
        if Allocation.maxSpillSize < c'.spillSize then
          .error (.exhausted c'.loc c'.name (.spillArea c'.spillSize)) st'
        else allocateRounds k limit remaining (round + 1) c' repair' st' := by
  have hne : (c.colored k repair).2.isEmpty = false := by simpa using h
  have hround : allocateRounds k limit (remaining + 1) round c repair st =
      EStateM.bind (c.spillAll repair (c.colored k repair).2)
        (fun r =>
          if Allocation.maxSpillSize < r.1.spillSize then
            throw (.exhausted r.1.loc r.1.name (.spillArea r.1.spillSize))
          else allocateRounds k limit remaining (round + 1) r.1 r.2)
        (c.noted k round repair st) := by
    rw [allocateRounds]
    simp only [colored] at hne
    simp only [bind, EStateM.bind, Build.note_eq, noted, colored, hne, Bool.false_eq_true, if_false]
  rw [hround, EStateM.bind]
  cases c.spillAll repair (c.colored k repair).2 (c.noted k round repair st) with
  | error e st' => rfl
  | ok r st' =>
    obtain ⟨c', repair'⟩ := r
    simp only
    split <;> rfl

abbrev spillNoted (c : Code) (t : Temp) (offset : Word) (st : Session) : Session :=
  { Spill.more st ((c.spillAt t offset).news c.instrs st.names.temps).length with
    notes := .spilled c.name t offset :: st.notes }

theorem spillAll_cons (c : Code) (repair : TempSet) (t : Temp) (ts : List Temp) (st : Session) :
    c.spillAll repair (t :: ts) st =
      match c.nextSlot with
      | .error cause => .error (.overflow cause) st
      | .ok (offset, spillSize) =>
        spillAll (c.spilled t offset spillSize st.names.temps)
          (((c.spillAt t offset).news c.instrs st.names.temps).foldl (·.insert ·) repair) ts
          (c.spillNoted t offset st) := by
  have hspill := spill_eq c t st
  rw [spillAll]
  cases hslot : c.nextSlot with
  | error cause =>
    rw [hslot] at hspill
    simp only [bind, EStateM.bind, hspill]
  | ok slot =>
    obtain ⟨offset, spillSize⟩ := slot
    rw [hslot] at hspill
    simp only [bind, EStateM.bind, hspill, Build.note_eq]

/-- What each spill keeps, spills in order keep. -/
theorem spillAll_induction {P : Code → Names → Prop} {ts : List Temp}
    (hstep : ∀ {c : Code} {st : Session} {t : Temp} (offset spillSize : Word), t ∈ ts →
      c.nextSlot = .ok (offset, spillSize) → P c st.names →
      P (c.spilled t offset spillSize st.names.temps) (c.spillNoted t offset st).names) :
    ∀ {c : Code} {repair : TempSet} {st : Session}, P c st.names →
      c.spillAll repair ts st = .ok (c', repair') st' → P c' st'.names := by
  induction ts with
  | nil =>
    intro c repair st h hok
    cases hok
    exact h
  | cons t ts ih =>
    intro c repair st h hok
    rw [spillAll_cons] at hok
    cases hslot : c.nextSlot with
    | error cause =>
      rw [hslot] at hok
      cases hok
    | ok slot =>
      obtain ⟨offset, spillSize⟩ := slot
      rw [hslot] at hok
      refine ih (fun {_ _ _} offset spillSize hu => ?_)
        (hstep offset spillSize List.mem_cons_self hslot h) hok
      exact hstep offset spillSize (List.mem_cons_of_mem _ hu)

/-- The frame stays, and code that is tidy stays so. -/
theorem Tidy.spillAll {ts : List Temp} (h : c.Tidy st.names)
    (hts : ∀ t ∈ ts, t ≠ c.frame.fp ∧ st.names.HasTemp t)
    (hok : c.spillAll repair ts st = .ok (c', repair') st') :
    c'.Tidy st'.names ∧ c'.frame = c.frame := by
  -- the temporaries to spill stay handed out
  let P (c₁ : Code) (n : Names) : Prop :=
    c₁.Tidy n ∧ c₁.frame = c.frame ∧ ∀ t ∈ ts, t ≠ c.frame.fp ∧ n.HasTemp t
  have hall : P c' st'.names := by
    refine spillAll_induction (P := P) ?_ ⟨h, rfl, hts⟩ hok
    rintro c₁ st₁ t offset spillSize ht - ⟨htidy, hframe, hts₁⟩
    obtain ⟨hfp, htemp⟩ := hts₁ t ht
    refine ⟨htidy.spilled (hframe ▸ hfp) htemp offset spillSize, hframe, fun u hu => ?_⟩
    exact ⟨(hts₁ u hu).1, Nat.lt_of_lt_of_le (hts₁ u hu).2 (Nat.le_add_right _ _)⟩
  exact ⟨hall.1, hall.2.1⟩

theorem mem_vertices_of_spill {t : Temp} (h : t ∈ (c.colored k repair).2) :
    t ∈ (c.interference c.liveness).vertices :=
  (Interference.mem_simplify (c.interference_simple c.liveness)).mp
    ((Interference.paint_sublist k _ _).subset h)

theorem nodup_spills (c : Code) (k : Nat) (repair : TempSet) : (c.colored k repair).2.Nodup :=
  ((Interference.simplify_ordered (c.interference_simple c.liveness)).nodup).sublist
    (Interference.paint_sublist k _ _)

theorem Tidy.spillable (h : c.Tidy st.names) (hne : c.frame.fp ≠ c.frame.rv) :
    ∀ t ∈ (c.colored k repair).2, t ≠ c.frame.fp ∧ st.names.HasTemp t := by
  intro t ht
  rcases mem_vertices_interference.mp (mem_vertices_of_spill ht) with ⟨hfp, hm⟩ | hrv
  · exact ⟨hfp, h.handed (mem_temps.mpr (Or.inl hm))⟩
  · obtain ⟨rfl, -⟩ := mem_liveAtExit.mp hrv
    exact ⟨hne.symm, h.handed (mem_temps.mpr (Or.inr (Or.inr rfl)))⟩

end Code

/-- The registers are the colours of the code's own graph, which leaves nothing without one. -/
structure Allocation.Settled (a : Allocation) (k : Nat) (repair : TempSet) : Prop where
  spills : (a.code.colored k repair).2 = []
  registers : a.registers = (a.code.colored k repair).1.registers a.code.frame.fp
  liveness : a.liveness = a.code.liveness

namespace Code

variable {c c' : Code} {k limit remaining : Nat} {st st' : Session} {a : Allocation}

/-- What the spills of each round keep, allocation keeps; and the last round settles it. -/
theorem allocateRounds_induction {P : Code → Names → Prop}
    (hround : ∀ {c c' : Code} {repair repair' : TempSet} {st st' : Session}, P c st.names →
      c.spillAll repair (c.colored k repair).2 st = .ok (c', repair') st' → P c' st'.names)
    {remaining : Nat} :
    ∀ {round : Nat} {c : Code} {repair : TempSet} {st : Session}, P c st.names →
      allocateRounds k limit remaining round c repair st = .ok a st' →
      P a.code st'.names ∧ ∃ repair', a.Settled k repair' := by
  induction remaining with
  | zero =>
    intro round c repair st _ h
    cases h
  | succ remaining ih =>
    intro round c repair st hc h
    by_cases hs : (c.colored k repair).2 = []
    · rw [allocateRounds_done hs] at h
      cases h
      exact ⟨hc, repair, hs, rfl, rfl⟩
    · rw [allocateRounds_spill hs] at h
      cases hspill : c.spillAll repair (c.colored k repair).2 (c.noted k round repair st) with
      | error e st₁ =>
        rw [hspill] at h
        cases h
      | ok r st₁ =>
        obtain ⟨c₁, repair₁⟩ := r
        rw [hspill] at h
        simp only at h
        split at h
        · cases h
        · have hn : P c (c.noted k round repair st).names := hc
          exact ih (hround hn hspill) h

theorem allocateRounds_settled {round : Nat} {repair : TempSet}
    (h : allocateRounds k limit remaining round c repair st = .ok a st') :
    ∃ repair', a.Settled k repair' :=
  (allocateRounds_induction (P := fun _ _ => True) (fun _ _ => trivial) trivial h).2

theorem Tidy.allocateRounds {round : Nat} {repair : TempSet} (ht : c.Tidy st.names)
    (hne : c.frame.fp ≠ c.frame.rv)
    (h : Code.allocateRounds k limit remaining round c repair st = .ok a st') :
    a.code.Tidy st'.names ∧ a.code.frame = c.frame := by
  let P (c₁ : Code) (n : Names) : Prop := c₁.Tidy n ∧ c₁.frame = c.frame
  refine (allocateRounds_induction (P := P) ?_ ⟨ht, rfl⟩ h).1
  rintro c₁ c₂ repair₁ repair₂ st₁ st₂ ⟨ht₁, hframe⟩ hspill
  obtain ⟨ht₂, hframe'⟩ := ht₁.spillAll (ht₁.spillable (hframe ▸ hne)) hspill
  exact ⟨ht₂, hframe'.trans hframe⟩

theorem checkRegisters_ok {u : Unit} (h : checkRegisters k st = .ok u st') :
    Register.least ≤ k ∧ k < Register.firstGlobal ∧ st' = st := by
  rw [checkRegisters] at h
  split at h
  · cases h
  · next hlow =>
    split at h
    · cases h
    · next hhigh =>
      cases h
      exact ⟨Nat.le_of_not_lt hlow, Nat.lt_of_not_le hhigh, rfl⟩

/-- An allocation that succeeds has an admissible number of registers and goes through rounds. -/
theorem allocate_ok (h : c.allocate k st = .ok a st') :
    Register.least ≤ k ∧ k < Register.firstGlobal ∧
      allocateRounds k (max c.temps.size 1) (max c.temps.size 1) 0 c ∅ st = .ok a st' := by
  obtain ⟨u, st₁, hcheck, hrounds⟩ := Build.bind_ok.mp h
  obtain ⟨hlow, hhigh, rfl⟩ := checkRegisters_ok hcheck
  exact ⟨hlow, hhigh, hrounds⟩

end Code

/-! ## Registers -/

theorem Interference.getElem?_registers (g : Interference) (fp t : Temp) :
    (g.registers fp)[t]? = if t = fp then some Register.fp else g.color? t := by
  simp only [registers, Std.ExtTreeMap.getElem?_insert, Std.LawfulEqOrd.compare_eq_iff_eq,
    Std.ExtTreeMap.getElem?_filterMap, Option.pbind_eq_bind]
  by_cases h : fp = t
  · rw [if_pos h, if_pos h.symm]
  · rw [if_neg h, if_neg (Ne.symm h)]
    rfl

namespace Allocation

/-- A register for each temporary of the code: the frame pointer has its own, the others have one
of the first `k`, and what an instruction writes does not share one with what is live after it. -/
structure Valid (a : Allocation) (k : Nat) : Prop where
  mentions : ∀ ⦃t⦄, a.code.Mentions t → (a.register? t).isSome
  fp : a.register? a.code.frame.fp = some Register.fp
  below : ∀ ⦃t r⦄, t ≠ a.code.frame.fp → a.register? t = some r → r < k
  liveness : a.liveness = a.code.liveness
  slots : ∀ ⦃t⦄, t ∈ a.code.slots → ¬ a.code.Mentions t
  rv : (a.register? a.code.frame.rv).isSome ↔ a.code.frame.rv ∉ a.code.slots
  apart : ∀ ⦃i instr d o⦄, a.code.instrs[i]? = some instr → d ∈ instr.defs →
    o ∈ a.liveness.liveOut.getD i ∅ → o ≠ d → a.register? d ≠ a.register? o

section Settled

variable {a : Allocation} {k : Nat} {repair : TempSet} {t : Temp}

theorem Settled.register?_eq (h : a.Settled k repair) (t : Temp) :
    a.register? t =
      if t = a.code.frame.fp then some Register.fp else (a.code.colored k repair).1.color? t := by
  rw [register?, h.registers, Interference.getElem?_registers]

theorem recolors_colored (c : Code) (k : Nat) (repair : TempSet) :
    Interference.Recolors (c.interference c.liveness) (c.colored k repair).1 :=
  Interference.paint_recolors k _ _

theorem proper_colored (c : Code) (k : Nat) (repair : TempSet) :
    (c.colored k repair).1.Proper k := by
  refine Interference.paint_proper _ (c.interference_simple c.liveness) ⟨?_, ?_⟩
  · intro t color h
    rw [Code.color?_interference] at h
    cases h
  · intro x y color _ h
    rw [Code.color?_interference] at h
    cases h

/-- A temporary other than the frame pointer has a register exactly when it is a vertex. -/
theorem Settled.isSome_register? (h : a.Settled k repair) (ht : t ≠ a.code.frame.fp) :
    (a.register? t).isSome ↔ t ∈ (a.code.interference a.code.liveness).vertices := by
  rw [h.register?_eq, if_neg ht]
  constructor
  · intro hs
    rw [← (recolors_colored a.code k repair).vertices t]
    by_contra hv
    rw [Interference.color?, Std.ExtTreeMap.getElem?_eq_none hv] at hs
    cases hs
  · intro hv
    have hg := a.code.interference_simple a.code.liveness
    have hspills : (Interference.paint k (a.code.interference a.code.liveness)
        ((a.code.interference a.code.liveness).simplify k repair)).2 = [] := h.spills
    have hmem : t ∈ Interference.temps
        ((a.code.interference a.code.liveness).simplify k repair) :=
      (Interference.mem_simplify hg).mpr hv
    rcases Interference.paint_complete (k := k) _ (Or.inr ⟨hv, hmem⟩) with hs | hs
    · exact hs
    · rw [hspills] at hs
      cases hs

theorem Settled.below (h : a.Settled k repair) {r : Nat} (ht : t ≠ a.code.frame.fp)
    (hr : a.register? t = some r) : r < k := by
  rw [h.register?_eq, if_neg ht] at hr
  exact (proper_colored a.code k repair).below hr

theorem Settled.mentions (h : a.Settled k repair) (ht : a.code.Mentions t) :
    (a.register? t).isSome := by
  by_cases hfp : t = a.code.frame.fp
  · rw [h.register?_eq, if_pos hfp]
    rfl
  · rw [h.isSome_register? hfp]
    exact Code.mem_vertices_interference.mpr (Or.inl ⟨hfp, ht⟩)

/-- What is written does not share a register with what else is live. -/
theorem Settled.apart (h : a.Settled k repair) (hk : k ≤ Register.fp) {i : Nat} {instr : Instr}
    {d o : Temp} (hi : a.code.instrs[i]? = some instr) (hd : d ∈ instr.defs)
    (ho : o ∈ a.code.liveness.liveOut.getD i ∅) (hne : o ≠ d) :
    a.register? d ≠ a.register? o := by
  have hmention : a.code.Mentions d := ⟨instr, List.mem_of_getElem? hi, Or.inr hd⟩
  intro heq
  by_cases hdfp : d = a.code.frame.fp
  · -- only the frame pointer has its register
    have hofp : o ≠ a.code.frame.fp := fun h' => hne (h'.trans hdfp.symm)
    rw [h.register?_eq d, if_pos hdfp] at heq
    exact absurd (h.below hofp heq.symm) (Nat.not_lt_of_le hk)
  · obtain ⟨r, hr⟩ := Option.isSome_iff_exists.mp (h.mentions hmention)
    by_cases hofp : o = a.code.frame.fp
    · rw [h.register?_eq o, if_pos hofp] at heq
      exact absurd (h.below hdfp heq) (Nat.not_lt_of_le hk)
    · have hnb : o ∈ (a.code.colored k repair).1.neighbours d := by
        rw [(recolors_colored a.code k repair).neighbours]
        refine Code.mem_neighbours_interference.mpr ⟨hne.symm, ?_, ?_, hdfp, hofp, Or.inl ?_⟩
        · exact Code.mem_vertices_interference.mpr (Or.inl ⟨hdfp, hmention⟩)
        · exact Code.mem_vertices_of_liveOut ho hofp
        · exact ⟨i, instr, hi, hd, ho⟩
      rw [hr] at heq
      rw [h.register?_eq, if_neg hdfp] at hr
      rw [h.register?_eq, if_neg hofp] at heq
      exact (proper_colored a.code k repair).apart hnb hr heq.symm

/-- In tidy code the return value has a register or a slot, and not both. -/
theorem Settled.isSome_register?_rv (h : a.Settled k repair) {n : Names} (ht : a.code.Tidy n)
    (hne : a.code.frame.fp ≠ a.code.frame.rv) :
    (a.register? a.code.frame.rv).isSome ↔ a.code.frame.rv ∉ a.code.slots := by
  rw [h.isSome_register? hne.symm, Code.mem_vertices_interference, Code.mem_liveAtExit]
  constructor
  · rintro (⟨-, hm⟩ | hexit)
    · exact fun hslot => (ht.slots hslot).2.1 hm
    · exact hexit.2
  · exact fun hslot => Or.inr ⟨rfl, hslot⟩

end Settled

end Allocation

/-- Whatever allocation returns for code with nothing spilled yet is valid, and has the code's
frame. -/
theorem Code.allocate_valid {c : Code} {k : Nat} {st st' : Session} {a : Allocation}
    (hnames : ∀ t ∈ c.temps, st.names.HasTemp t) (hne : c.frame.fp ≠ c.frame.rv)
    (hfp : ∀ i ∈ c.instrs, c.frame.fp ∉ i.defs) (hslots : c.slots = ∅)
    (h : c.allocate k st = .ok a st') : a.Valid k ∧ a.code.frame = c.frame := by
  obtain ⟨-, hk, hrounds⟩ := allocate_ok h
  obtain ⟨repair, hs⟩ := allocateRounds_settled hrounds
  have htidy : c.Tidy st.names := ⟨hnames, by simp [hslots], hfp⟩
  obtain ⟨hta, hframe⟩ := htidy.allocateRounds hne hrounds
  refine ⟨⟨fun t ht => hs.mentions ht, ?_, fun t r ht hr => hs.below ht hr, hs.liveness,
    fun t ht => (hta.slots ht).2.1, hs.isSome_register?_rv hta (hframe ▸ hne), ?_⟩, hframe⟩
  · rw [hs.register?_eq, if_pos rfl]
  · intro i instr d o hi hd ho hne'
    rw [hs.liveness] at ho
    exact hs.apart (Nat.le_of_lt (Nat.lt_trans hk (by decide))) hi hd ho hne'

/-- More temporaries live at once than three registers hold. -/
def crowded : Code where
  name := "_crowded"
  frame := ⟨⟨0⟩, 0, 0, 0, 0, ⟨0⟩, ⟨1⟩⟩
  entry := ⟨1⟩
  exit := ⟨2⟩
  instrs := [
    .oper (.setLow 1) [] [⟨2⟩] [], .oper (.setLow 2) [] [⟨3⟩] [],
    .oper (.setLow 3) [] [⟨4⟩] [], .oper (.setLow 4) [] [⟨5⟩] [],
    .oper (.arith .add) [⟨2⟩, ⟨3⟩] [⟨6⟩] [], .oper (.arith .add) [⟨4⟩, ⟨5⟩] [⟨7⟩] [],
    .oper (.arith .add) [⟨6⟩, ⟨7⟩] [⟨1⟩] [], .oper (.jump "L2") [] [] [⟨2⟩]]

theorem crowded_handed : ∀ t ∈ crowded.temps, ({ temps := 8 } : Names).HasTemp t := by
  have h : ∀ t ∈ crowded.temps.toList, t.index < 8 := by decide +kernel
  exact fun t ht => h t (Std.ExtTreeSet.mem_toList.mpr ht)

/-- Three of its temporaries are spilled, and the rest fits. -/
theorem Code.allocate_valid_crowded :
    (∀ i ∈ crowded.instrs, crowded.frame.fp ∉ i.defs) ∧ crowded.slots = ∅ ∧
      ∃ a st', crowded.allocate 3 { names := { temps := 8 } } = .ok a st' ∧
        a.code.slots.size = 3 ∧ a.Valid 3 := by
  have hrun : ∃ a st', crowded.allocate 3 { names := { temps := 8 } } = .ok a st' ∧
      a.code.slots.size = 3 := by
    decide +kernel
  have hfp : ∀ i ∈ crowded.instrs, crowded.frame.fp ∉ i.defs := by decide
  obtain ⟨a, st', h, hsize⟩ := hrun
  exact ⟨hfp, rfl, a, st', h, hsize,
    (Code.allocate_valid crowded_handed (by decide) hfp rfl h).1⟩

end MmixBackend
