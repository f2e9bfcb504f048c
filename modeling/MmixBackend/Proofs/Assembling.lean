import MmixBackend.Proofs.Drawing
import MmixBackend.Proofs.SelectionSimulation

/-!
# When a program is assembled

The passes after intermediate code fail for few reasons.  Selection succeeds on canonical code.
Allocation never runs out of rounds, so what stops it is arithmetic that leaves the range of words,
or a spill area that outgrows its limit.  Emission finds a register for each temporary and a place
for each return value, so what stops it is arithmetic, or a program without an entry.

Whether a spill area outgrows the limit is said apart from allocation: by the rounds of spilling
that there would be if slots might take as much room as they like.
-/

namespace MmixBackend

open Typed Build

/-! ## Rounds without a limit -/

namespace Code

variable {c c₁ c₂ c' : Code} {k limit remaining : Nat} {repair repair₁ repair₂ : TempSet}
  {n n₁ n₂ : Names} {st st' : Session}

/-- Rounds of spilling lead from a code to another, however much room the slots take; with each go
the temporaries that stem from spills and the names that are handed out. -/
inductive Respilled (k : Nat) : Code → TempSet → Names → Code → TempSet → Names → Prop
  | refl (c : Code) (repair : TempSet) (n : Names) : Respilled k c repair n c repair n
  | round {c c₁ c' : Code} {repair repair₁ repair' : TempSet} {n n' : Names} {st : Session} :
    (c.colored k repair).2 ≠ [] →
    c.spillAll repair (c.colored k repair).2 { names := n } = .ok (c₁, repair₁) st →
    Respilled k c₁ repair₁ st.names c' repair' n' → Respilled k c repair n c' repair' n'

/-- The spill area grows beyond 1 MiB. -/
def Outgrows (k : Nat) (c : Code) (repair : TempSet) (n : Names) : Prop :=
  ∃ c' repair' n', Respilled k c repair n c' repair' n' ∧ 1048576 < c'.spillSize

theorem Respilled.settled (h : Respilled k c repair n c₁ repair₁ n₁)
    (hs : (c.colored k repair).2 = []) : c₁ = c ∧ repair₁ = repair ∧ n₁ = n := by
  cases h with
  | refl => exact ⟨rfl, rfl, rfl⟩
  | round hne => exact absurd hs hne

theorem Respilled.unique (h₁ : Respilled k c repair n c₁ repair₁ n₁)
    (hs₁ : (c₁.colored k repair₁).2 = []) (h₂ : Respilled k c repair n c₂ repair₂ n₂)
    (hs₂ : (c₂.colored k repair₂).2 = []) : n₂ = n₁ := by
  induction h₁ with
  | refl => exact (h₂.settled hs₁).2.2
  | round hne hspill _ ih =>
    cases h₂ with
    | refl => exact absurd hs₂ hne
    | round _ hspill₂ hrest₂ =>
      rw [hspill] at hspill₂
      cases hspill₂
      exact ih hs₁ hrest₂

/-- When nothing is left to spill, the area stays as it is. -/
theorem not_outgrows_of_settled (hs : (c.colored k repair).2 = [])
    (hsmall : ¬ (1048576 : Word) < c.spillSize) : ¬ c.Outgrows k repair n := by
  rintro ⟨c', repair', n', h, hbig⟩
  obtain ⟨rfl, -, -⟩ := h.settled hs
  exact hsmall hbig

/-- An area that is small enough outgrows the limit exactly when it does so after a round. -/
theorem outgrows_round (hne : (c.colored k repair).2 ≠ [])
    (hspill : c.spillAll repair (c.colored k repair).2 { names := n } = .ok (c₁, repair₁) st)
    (hsmall : ¬ (1048576 : Word) < c.spillSize) :
    c.Outgrows k repair n ↔ c₁.Outgrows k repair₁ st.names := by
  constructor
  · rintro ⟨c', repair', n', h, hbig⟩
    cases h with
    | refl => exact absurd hbig hsmall
    | round _ hspill' hrest =>
      rw [hspill] at hspill'
      cases hspill'
      exact ⟨c', repair', n', hrest, hbig⟩
  · rintro ⟨c', repair', n', h, hbig⟩
    exact ⟨c', repair', n', .round hne hspill h, hbig⟩

/-! ## What comes of allocation -/

theorem spillAll_notes {ts : List Temp} {r : Code × TempSet} :
    ∀ {c : Code} {repair : TempSet} (st : Session) (notes : List Note),
      c.spillAll repair ts st = .ok r st' →
      ∃ notes', c.spillAll repair ts { st with notes } = .ok r { st' with notes := notes' } := by
  induction ts with
  | nil =>
    intro c repair st notes h
    cases h
    exact ⟨notes, rfl⟩
  | cons t ts ih =>
    intro c repair st notes h
    rw [spillAll_cons] at h ⊢
    cases hslot : c.nextSlot with
    | error cause =>
      rw [hslot] at h
      cases h
    | ok slot =>
      obtain ⟨offset, spillSize⟩ := slot
      rw [hslot] at h
      exact ih (c.spillNoted t offset st) (.spilled c.name t offset :: notes) h

/-- Spilling fails for want of room for a slot. -/
theorem spillAll_error {ts : List Temp} {e : Failure} :
    ∀ {c : Code} {repair : TempSet} {st : Session}, c.spillAll repair ts st = .error e st' →
      ∃ cause, e = .overflow cause := by
  induction ts with
  | nil =>
    intro c repair st h
    cases h
  | cons t ts ih =>
    intro c repair st h
    rw [spillAll_cons] at h
    cases hslot : c.nextSlot with
    | error cause =>
      rw [hslot] at h
      cases h
      exact ⟨cause, rfl⟩
    | ok slot =>
      obtain ⟨offset, spillSize⟩ := slot
      rw [hslot] at h
      exact ih h

/-- What may come of rounds: an allocation after rounds that never outgrow the limit, or a failure
for want of rounds, of words, or of room in an area that does outgrow it. -/
def EndsUnlessOutgrown (k : Nat) (c : Code) (repair : TempSet) (n : Names) :
    EStateM.Result Failure Session Allocation → Prop
  | .ok a st' =>
    ¬ c.Outgrows k repair n ∧
      ∃ repair', Respilled k c repair n a.code repair' st'.names ∧
        (a.code.colored k repair').2 = []
  | .error e _ =>
    (∃ loc function rounds, e = .exhausted loc function (.rounds rounds)) ∨
      (∃ cause, e = .overflow cause) ∨
      (∃ loc function bytes, e = .exhausted loc function (.spillArea bytes)) ∧
        c.Outgrows k repair n

theorem allocateRounds_endsUnlessOutgrown (k limit remaining : Nat) :
    ∀ (round : Nat) {c : Code} (repair : TempSet) (st : Session),
      ¬ (1048576 : Word) < c.spillSize →
      c.EndsUnlessOutgrown k repair st.names
        (allocateRounds k limit remaining round c repair st) := by
  induction remaining with
  | zero => exact fun _ _ _ _ _ => Or.inl ⟨_, _, _, rfl⟩
  | succ remaining ih =>
    intro round c repair st hsmall
    by_cases hs : (c.colored k repair).2 = []
    · rw [allocateRounds_done hs]
      exact ⟨not_outgrows_of_settled hs hsmall, repair, .refl _ _ _, hs⟩
    · rw [allocateRounds_spill hs]
      cases hspill : c.spillAll repair (c.colored k repair).2 (c.noted k round repair st) with
      | error e st₁ => exact Or.inr (Or.inl (spillAll_error hspill))
      | ok r st₁ =>
        obtain ⟨c₁, repair₁⟩ := r
        obtain ⟨notes, hspill'⟩ := spillAll_notes _ [] hspill
        have hgrows := outgrows_round hs hspill' hsmall
        simp only
        split
        · next hbig =>
          refine Or.inr (Or.inr ⟨⟨_, _, _, rfl⟩, hgrows.mpr ?_⟩)
          exact ⟨c₁, repair₁, _, .refl _ _ _, hbig⟩
        · next hsmall₁ =>
          have houtcome := ih (round + 1) repair₁ st₁ hsmall₁
          cases hres : allocateRounds k limit remaining (round + 1) c₁ repair₁ st₁ with
          | ok a st₂ =>
            rw [hres] at houtcome
            obtain ⟨hnot, repair', hrounds, hend⟩ := houtcome
            exact ⟨fun h => hnot (hgrows.mp h), repair', .round hs hspill' hrounds, hend⟩
          | error e st₂ =>
            rw [hres] at houtcome
            rcases houtcome with hrounds | hwords | ⟨harea, hout⟩
            · exact Or.inl hrounds
            · exact Or.inr (Or.inl hwords)
            · exact Or.inr (Or.inr ⟨harea, hgrows.mpr hout⟩)

theorem allocateRounds_le {round : Nat} {a : Allocation}
    (h : allocateRounds k limit remaining round c repair st = .ok a st') :
    st.names ≤ st'.names := by
  refine (allocateRounds_induction (P := fun _ n => st.names ≤ n) ?_ (Names.le_refl _) h).1
  intro c₁ c₂ _ _ st₁ st₂ hle hspill
  refine spillAll_induction (P := fun _ n => st.names ≤ n) ?_ hle hspill
  intro c₃ st₃ t offset spillSize _ _ hle₃
  exact Names.le_trans hle₃ ⟨Nat.le_add_right _ _, List.prefix_refl _⟩

/-- Code as it is selected: nothing is spilled, the temporaries were handed out, the frame has two
of them, and instructions are slim. -/
structure Fresh (c : Code) (n : Names) : Prop where
  slots : c.slots = ∅
  size : c.spillSize = 0
  temps : ∀ t ∈ c.temps, n.HasTemp t
  apart : c.frame.fp ≠ c.frame.rv
  slim : ∀ i ∈ c.instrs, i.Slim c.frame.fp

theorem Fresh.mono (h : c.Fresh n) (hle : n ≤ n₁) : c.Fresh n₁ :=
  ⟨h.slots, h.size, fun t ht => Nat.lt_of_lt_of_le (h.temps t ht) (Names.temps_le hle), h.apart,
    h.slim⟩

end Code

/-- Each temporary that the code mentions has a register, and the return value has a register or a
slot. -/
structure Allocation.Complete (a : Allocation) : Prop where
  mentions : ∀ ⦃t⦄, a.code.Mentions t → (a.register? t).isSome
  result : (a.register? a.code.frame.rv).isSome ∨ a.code.frame.rv ∈ a.code.slots

section Allocate

variable {c : Code} {cs : List Code} {k : Nat} {st st' : Session} {a : Allocation}

/-- Whatever allocation returns for fresh code is complete. -/
theorem Code.Fresh.complete (h : c.Fresh st.names) (ha : c.allocate k st = .ok a st') :
    a.Complete ∧ a.code.frame = c.frame := by
  obtain ⟨-, -, hrounds⟩ := Code.allocate_ok ha
  obtain ⟨repair, hs⟩ := Code.allocateRounds_settled hrounds
  have htidy : c.Tidy st.names :=
    ⟨h.temps, by simp [h.slots], fun i hi => (h.slim i hi).fp⟩
  obtain ⟨hta, hframe⟩ := htidy.allocateRounds h.apart hrounds
  refine ⟨⟨fun t ht => hs.mentions ht, ?_⟩, hframe⟩
  by_cases hrv : a.code.frame.rv ∈ a.code.slots
  · exact Or.inr hrv
  · exact Or.inl ((hs.isSome_register?_rv hta (hframe ▸ h.apart)).mpr hrv)

/-- Allocation for fresh code fails for want of words, or of room in an area that outgrows the
limit; else the area does not outgrow it. -/
theorem Code.Fresh.allocate_ok_or_outgrows (h : c.Fresh st.names) (hk : 3 ≤ k) (hk' : k ≤ 250) :
    match c.allocate k st with
    | .ok a st' =>
      ¬ c.Outgrows k ∅ st.names ∧
        ∃ repair, Code.Respilled k c ∅ st.names a.code repair st'.names ∧
          (a.code.colored k repair).2 = []
    | .error e _ =>
      (∃ cause, e = .overflow cause) ∨
        (∃ loc function bytes, e = .exhausted loc function (.spillArea bytes)) ∧
          c.Outgrows k ∅ st.names := by
  have hsmall : ¬ (1048576 : Word) < c.spillSize := by
    rw [h.size]
    decide
  have houtcome := Code.allocateRounds_endsUnlessOutgrown k (max c.temps.size 1)
    (max c.temps.size 1) 0 ∅ st hsmall
  rw [← Code.allocate_eq c st hk hk'] at houtcome
  have hsettles : c.Settles st (c.allocate k st) := by
    rw [Code.allocate_eq c st hk hk']
    exact (Code.midway_start h.slots h.size h.temps h.slim).allocateRounds hk h.apart
      (Nat.zero_le _) (Nat.le_max_left _ _)
  cases hres : c.allocate k st with
  | ok a st' =>
    rw [hres] at houtcome
    exact houtcome
  | error e st' =>
    rw [hres] at houtcome hsettles
    rcases houtcome with ⟨loc, function, rounds, he⟩ | hother
    · exact absurd he (hsettles.2.1 loc function rounds)
    · exact hother

/-- The spill area of one of several functions, allocated one after another, grows beyond
1 MiB. -/
inductive Outgrown (k : Nat) : List Code → Names → Prop
  | here {c : Code} {cs : List Code} {n : Names} : c.Outgrows k ∅ n → Outgrown k (c :: cs) n
  | later {c c' : Code} {cs : List Code} {repair : TempSet} {n n' : Names} :
    Code.Respilled k c ∅ n c' repair n' → (c'.colored k repair).2 = [] → Outgrown k cs n' →
    Outgrown k (c :: cs) n

theorem not_outgrown_nil {n : Names} : ¬ Outgrown k [] n := by
  intro h
  cases h

theorem allocateAll_ok_or_outgrown (hk : 3 ≤ k) (hk' : k ≤ 250) :
    ∀ {cs : List Code} {st : Session}, (∀ c ∈ cs, c.Fresh st.names) →
      match allocateAll cs k st with
      | .ok as st' =>
        ¬ Outgrown k cs st.names ∧ st.names ≤ st'.names ∧ (∀ a ∈ as, a.Complete) ∧
          as.map (·.code.frame) = cs.map (·.frame)
      | .error e _ =>
        (∃ cause, e = .overflow cause) ∨
          (∃ loc function bytes, e = .exhausted loc function (.spillArea bytes)) ∧
            Outgrown k cs st.names := by
  intro cs
  induction cs with
  | nil => exact fun {st} _ => ⟨not_outgrown_nil, Names.le_refl _, by simp, rfl⟩
  | cons c cs ih =>
    intro st hfresh
    have hc := hfresh c List.mem_cons_self
    have houtcome := hc.allocate_ok_or_outgrows hk hk'
    unfold allocateAll at ih ⊢
    rw [List.mapM_cons]
    cases hres : c.allocate k st with
    | error e st₁ =>
      rw [hres] at houtcome
      rw [bind_of_error hres]
      exact houtcome.imp_right fun h => ⟨h.1, .here h.2⟩
    | ok a st₁ =>
      rw [hres] at houtcome
      obtain ⟨hnot, repair, hrounds, hend⟩ := houtcome
      obtain ⟨hcomplete, hframe⟩ := hc.complete hres
      obtain ⟨-, -, hrun⟩ := Code.allocate_ok hres
      have hle := Code.allocateRounds_le hrun
      have hrest := ih fun c' hc' => (hfresh c' (List.mem_cons_of_mem _ hc')).mono hle
      rw [bind_of_ok hres]
      cases hall : cs.mapM (·.allocate k) st₁ with
      | error e st₂ =>
        rw [hall] at hrest
        rw [bind_of_error hall]
        exact hrest.imp_right fun h => ⟨h.1, .later hrounds hend h.2⟩
      | ok as st₂ =>
        rw [hall] at hrest
        rw [bind_of_ok hall]
        obtain ⟨hnone, hle', has, hframes⟩ := hrest
        refine ⟨fun h => ?_, Names.le_trans hle hle', ?_, ?_⟩
        · cases h with
          | here hout => exact hnot hout
          | later hrounds' hend' hlater =>
            rw [hrounds.unique hend hrounds' hend'] at hlater
            exact hnone hlater
        · intro b hb
          rcases List.mem_cons.mp hb with rfl | hb
          · exact hcomplete
          · exact has b hb
        · rw [List.map_cons, List.map_cons, hframe, hframes]

end Allocate

/-! ## Selection for all functions -/

/-- Selection succeeds for canonical chunks, and gives fresh code with the frames of the chunks. -/
theorem selectAll_ok (window : Nat) :
    ∀ {chunks : List CodeChunk} {s : Session},
      (∀ c ∈ chunks, c.Drawn s.names ∧ Ir.isCanonical c.stmts) →
      ∃ codes s', chunks.mapM (·.select window) s = .ok codes s' ∧ s.names ≤ s'.names ∧
        (∀ c ∈ codes, c.Fresh s'.names) ∧ codes.map (·.frame) = chunks.map (·.frame) := by
  intro chunks
  induction chunks with
  | nil => exact fun {s} _ => ⟨[], s, rfl, Names.le_refl _, by simp, rfl⟩
  | cons chunk chunks ih =>
    intro s h
    obtain ⟨hdrawn, hform⟩ := h chunk List.mem_cons_self
    obtain ⟨c, s₁, hc⟩ := chunk.exists_select hform window s
    obtain ⟨hpicks, hframe, hslots, hsize⟩ := CodeChunk.select_ok hc
    obtain ⟨htemps, hslim⟩ := hdrawn.select hc
    obtain ⟨codes, s₂, hcodes, hle, hfresh, hframes⟩ := ih fun c' hc' =>
      ⟨(h c' (List.mem_cons_of_mem _ hc')).1.mono hpicks.names,
        (h c' (List.mem_cons_of_mem _ hc')).2⟩
    have hown : c.Fresh s₁.names := ⟨hslots, hsize, htemps, hframe ▸ hdrawn.apart, hslim⟩
    refine ⟨c :: codes, s₂, ?_, Names.le_trans hpicks.names hle, ?_, ?_⟩
    · rw [List.mapM_cons, bind_of_ok hc, bind_of_ok hcodes]
      rfl
    · intro c' hc'
      rcases List.mem_cons.mp hc' with rfl | hc'
      · exact hown.mono hle
      · exact hfresh c' hc'
    · rw [List.map_cons, List.map_cons, hframe, hframes]

/-! ## Emission -/

namespace Assembly

variable {names : Names} {a : Allocation}

theorem unallocated?_eq_none {i : Instr}
    (h : ∀ t ∈ i.uses ++ i.defs, (a.register? t).isSome) : unallocated? a i = none := by
  refine List.find?_eq_none.mpr fun t ht => ?_
  have hsome := h t ht
  rw [Allocation.register?, Std.ExtTreeMap.isSome_getElem?_eq_contains] at hsome
  simp [hsome]

theorem exists_bodyFrom {is : List Instr}
    (h : ∀ i ∈ is, ∀ t ∈ i.uses ++ i.defs, (a.register? t).isSome) :
    ∀ waiting, ∃ lines, bodyFrom names a waiting is = .ok lines := by
  induction is with
  | nil => exact fun waiting => ⟨_, rfl⟩
  | cons i is ih =>
    intro waiting
    have hrest := ih fun j hj => h j (List.mem_cons_of_mem _ hj)
    have hnone := unallocated?_eq_none (h i List.mem_cons_self)
    cases i with
    | label l =>
      obtain ⟨lines, hl⟩ := hrest (some (names.textOf l))
      exact ⟨_, by rw [bodyFrom, hl]; rfl⟩
    | oper | move =>
      obtain ⟨lines, hl⟩ := hrest none
      exact ⟨_, by simp only [bodyFrom, hnone, hl]; rfl⟩

/-- A result in a register or in a slot can be stored. -/
theorem exists_storeResult (exit : String)
    (h : (a.register? a.code.frame.rv).isSome ∨ a.code.frame.rv ∈ a.code.slots) :
    ∃ stored, storeResult exit a = some stored := by
  simp only [storeResult]
  cases hr : a.register? a.code.frame.rv with
  | some r => exact ⟨_, rfl⟩
  | none =>
    have hslot : a.code.frame.rv ∈ a.code.slots :=
      h.resolve_left (by rw [hr]; exact Bool.false_ne_true)
    obtain ⟨slot, hs⟩ := Option.isSome_iff_exists.mp
      (Std.ExtTreeMap.isSome_getElem?_iff_mem.mpr hslot)
    rw [hs]
    exact ⟨_, rfl⟩

/-- The lines of a complete allocation are found, if its words are in range. -/
theorem function_ok_or_overflow (names : Names) (h : a.Complete) (s : Session) :
    (∃ lines s', function names a s = .ok lines s') ∨
      ∃ cause s', function names a s = .error (.overflow cause) s' := by
  obtain ⟨lines, hlines⟩ : ∃ lines, bodyFrom names a none a.code.instrs = .ok lines :=
    exists_bodyFrom (fun i hi t ht => h.mentions ⟨i, hi, List.mem_append.mp ht⟩) none
  obtain ⟨stored, hstored⟩ := exists_storeResult (names.textOf a.code.exit) h.result
  unfold function
  cases hstart : prologue names a.code with
  | error cause => exact Or.inr ⟨cause, s, rfl⟩
  | ok start =>
    simp only [body, hlines, hstored]
    cases hfinish : restore a.code with
    | error cause => exact Or.inr ⟨cause, s, rfl⟩
    | ok finish => exact Or.inl ⟨_, s, rfl⟩

theorem functions_ok_or_overflow {as : List Allocation} :
    (∀ a ∈ as, a.Complete) → ∀ s : Session,
      (∃ lines s', functions names as s = .ok lines s') ∨
        ∃ cause s', functions names as s = .error (.overflow cause) s' := by
  induction as with
  | nil => exact fun _ s => Or.inl ⟨_, s, rfl⟩
  | cons a as ih =>
    intro h s
    rw [functions]
    rcases function_ok_or_overflow names (h a List.mem_cons_self) s with
      ⟨lines, s₁, hok⟩ | ⟨cause, s₁, herror⟩
    · rw [bind_of_ok hok]
      rcases ih (fun b hb => h b (List.mem_cons_of_mem _ hb)) s₁ with
        ⟨rest, s₂, hrest⟩ | ⟨cause, s₂, hrest⟩
      · rw [bind_of_ok hrest]
        exact Or.inl ⟨_, s₂, rfl⟩
      · rw [bind_of_error hrest]
        exact Or.inr ⟨cause, s₂, rfl⟩
    · rw [bind_of_error herror]
      exact Or.inr ⟨cause, s₁, rfl⟩

theorem listing_of_no_main {data : List DataChunk} {as : List Allocation} {k : Nat} {s : Session}
    (hmain : as.any (isMain s.names) = false) :
    listing data as k s = .error .missingEntry s := by
  have hget : (get : Build Session) s = .ok s s := rfl
  rw [listing, bind_of_ok hget, hmain]
  rfl

theorem listing_of_main (data : List DataChunk) {as : List Allocation} (k : Nat) {s : Session}
    (hmain : as.any (isMain s.names) = true) :
    listing data as k s = (do
      let code ← functions s.names as
      let rows := bootstrap s.names data k ++ code ++ runtime
      Build.note (.assembled as.length data.length rows.length)
      return rows) s := by
  have hget : (get : Build Session) s = .ok s s := rfl
  rw [listing, bind_of_ok hget, hmain]
  rfl

/-- A program of complete allocations has lines, unless it has no entry or words leave their
range. -/
theorem program_ok_or_missingEntry (data : List DataChunk) {as : List Allocation} (k : Nat)
    (h : ∀ a ∈ as, a.Complete) (s : Session) :
    match program data as k s with
    | .ok _ _ => as.any (isMain s.names) = true
    | .error e _ => (∃ cause, e = .overflow cause) ∨
        e = .missingEntry ∧ as.any (isMain s.names) = false := by
  cases hmain : as.any (isMain s.names) with
  | false =>
    rw [program, bind_of_error (listing_of_no_main hmain)]
    exact Or.inr ⟨rfl, rfl⟩
  | true =>
    have hrows := listing_of_main data k hmain
    rcases functions_ok_or_overflow h s with ⟨code, s₁, hok⟩ | ⟨cause, s₁, herror⟩
    · rw [bind_of_ok hok] at hrows
      rw [program, bind_of_ok hrows]
      rfl
    · rw [bind_of_error herror] at hrows
      rw [program, bind_of_error hrows]
      exact Or.inl ⟨cause, rfl⟩

end Assembly

/-! ## Whole programs -/

namespace Typed.Program

variable {p : Program} {k : Nat} {c : Compiled} {s₀ s s' : Session}

/-- A function at top level is called `main` and has a body. -/
def HasMain (p : Program) : Prop := ∃ head body, Decl.fn head body ∈ p.decls ∧ head.name = "main"

/-- With `k` registers, the spill area of a function of the program grows beyond 1 MiB. -/
def Outgrows (p : Program) (k : Nat) : Prop :=
  ∃ c s codes s', p.compile {} = .ok c s ∧ c.chunks.select k s = .ok codes s' ∧
    Outgrown k codes s'.names

/-- The label of a chunk of a compiled program is the entry exactly when the chunk is that of a
function at top level called `main`. -/
theorem lookup_main_iff (h : p.compile s₀ = .ok c s) (hheads : (p.heads.map (·.id)).Nodup)
    {n : Names} (hle : s.names ≤ n) :
    (∃ chunk ∈ c.chunks.code, n.lookup "_main" = some chunk.frame.label) ↔ p.HasMain := by
  obtain ⟨s₁, s₂, hlayout, hlower, hchunks⟩ := Program.compile_ok h
  have hof := Program.chunksOf hchunks
  have hle₁ : s₁.names ≤ n :=
    Names.le_trans (Lowering.functions_lowers hlower).change.names (Names.le_trans hof.names hle)
  -- the frame of a chunk that was built for a function of the list
  have hframe : ∀ {chunk : CodeChunk} {f : Head × Expr} {around : List Head},
      BuiltFor c.layout c.code s₂.names s.names chunk f →
      Item.function around f.1 (some f.2) ∈ p.items →
      (n.lookup "_main" = some chunk.frame.label ↔ around = [] ∧ f.1.name = "main") := by
    rintro chunk f around ⟨r, r', hbuild, -, -⟩ hitem
    obtain ⟨_, _, _, hown, -⟩ := CodeChunk.build_ok hbuild
    have hmade := Layouting.made_of_frame hlayout hheads hitem hown
    have hmain : "_main" = "_" ++ "main" := by decide
    rw [(hmade.mono hle₁).lookup_iff, hmain, String.append_right_inj,
      List.length_eq_zero_iff]
    exact and_congr_right fun _ => eq_comm
  constructor
  · rintro ⟨chunk, hchunk, hlook⟩
    obtain ⟨f, hf, hbuilt⟩ := exists_rel_of_mem hof.code chunk hchunk
    obtain ⟨around, hitem⟩ := Program.exists_item hf
    obtain ⟨rfl, hname⟩ := (hframe hbuilt hitem).mp hlook
    exact ⟨f.1, f.2, Program.item_nil_iff.mp hitem, hname⟩
  · rintro ⟨head, body, hfn, hname⟩
    obtain ⟨chunk, hchunk, hbuilt⟩ := exists_rel_of_mem hof.code.flip _ (Program.mem_functions hfn)
    exact ⟨chunk, hchunk, (hframe hbuilt (Program.item_nil_iff.mpr hfn)).mpr ⟨rfl, hname⟩⟩

theorem checkRegisters_ok_or_config (k : Nat) (s : Session) :
    (3 ≤ k ∧ k ≤ 250) ∧ checkRegisters k s = .ok () s ∨
      ¬ (3 ≤ k ∧ k ≤ 250) ∧ ∃ count, checkRegisters k s = .error (.config count) s := by
  unfold checkRegisters
  by_cases hlow : k < Register.least
  · rw [if_pos hlow]
    refine Or.inr ⟨fun h => ?_, _, rfl⟩
    exact absurd hlow (Nat.not_lt_of_le h.1)
  · rw [if_neg hlow]
    by_cases hhigh : Register.firstGlobal ≤ k
    · rw [if_pos hhigh]
      refine Or.inr ⟨fun h => ?_, _, rfl⟩
      exact absurd hhigh (Nat.not_le_of_lt (Nat.lt_succ_of_le h.2))
    · rw [if_neg hhigh]
      exact Or.inl ⟨⟨Nat.le_of_not_lt hlow, Nat.le_of_lt_succ (Nat.lt_of_not_le hhigh)⟩, rfl⟩

/-- Whatever comes of assembling a program that compiles, with the reason. -/
theorem assemble_ok_or_reason (h : p.compile {} = .ok c s)
    (hids : (Lowering.ids (Decl.listThroughout p.decls)).Nodup)
    (hheads : (p.heads.map (·.id)).Nodup) (k : Nat) :
    match p.assemble k {} with
    | .ok _ _ => (3 ≤ k ∧ k ≤ 250) ∧ p.HasMain ∧ ¬ p.Outgrows k
    | .error e _ =>
      (∃ cause, e = .overflow cause) ∨ (∃ count, e = .config count) ∧ ¬ (3 ≤ k ∧ k ≤ 250) ∨
        (3 ≤ k ∧ k ≤ 250) ∧
          (e = .missingEntry ∧ ¬ p.HasMain ∨
            (∃ loc function bytes, e = .exhausted loc function (.spillArea bytes)) ∧
              p.Outgrows k) := by
  have hstart : p.assemble k {} = c.chunks.assemble k s := bind_of_ok h
  rw [hstart, Chunks.assemble]
  rcases checkRegisters_ok_or_config k s with ⟨hk, hcheck⟩ | ⟨hk, count, hcheck⟩
  · obtain ⟨codes, s₁, hcodes, hle₁, hfresh, hframes⟩ :=
      selectAll_ok k (compile_drawn h hids hheads)
    have hselect : c.chunks.select k s = .ok codes s₁ := by
      rw [Chunks.select, bind_of_ok hcheck, hcodes]
    have hgrows : p.Outgrows k ↔ Outgrown k codes s₁.names := by
      constructor
      · rintro ⟨c', r, codes', r', hc', hcodes', hout⟩
        rw [h] at hc'
        cases hc'
        rw [hselect] at hcodes'
        cases hcodes'
        exact hout
      · exact fun hout => ⟨c, s, codes, s₁, h, hselect, hout⟩
    rw [bind_of_ok hselect]
    have hall := allocateAll_ok_or_outgrown hk.1 hk.2 hfresh
    cases hres : allocateAll codes k s₁ with
    | error e s₂ =>
      rw [hres] at hall
      rw [bind_of_error hres]
      rcases hall with hwords | ⟨harea, hout⟩
      · exact Or.inl hwords
      · exact Or.inr (Or.inr ⟨hk, Or.inr ⟨harea, hgrows.mpr hout⟩⟩)
    | ok as s₂ =>
      rw [hres] at hall
      rw [bind_of_ok hres]
      obtain ⟨hnot, hle₂, hcomplete, hframes'⟩ := hall
      have hmain : as.any (Assembly.isMain s₂.names) = true ↔ p.HasMain := by
        rw [← lookup_main_iff h hheads (Names.le_trans hle₁ hle₂), List.any_eq_true]
        have hsame := hframes'.trans hframes
        constructor
        · rintro ⟨a, ha, heq⟩
          obtain ⟨chunk, hchunk, hframe⟩ := List.mem_map.mp
            (hsame ▸ List.mem_map_of_mem ha : a.code.frame ∈ c.chunks.code.map (·.frame))
          exact ⟨chunk, hchunk, by rw [hframe]; exact eq_of_beq heq⟩
        · rintro ⟨chunk, hchunk, heq⟩
          obtain ⟨a, ha, hframe⟩ := List.mem_map.mp
            (hsame ▸ List.mem_map_of_mem hchunk : chunk.frame ∈ as.map (·.code.frame))
          refine ⟨a, ha, ?_⟩
          rw [Assembly.isMain, heq, hframe]
          exact beq_self_eq_true _
      have hprogram := Assembly.program_ok_or_missingEntry c.chunks.data k hcomplete s₂
      cases hrun : Assembly.program c.chunks.data as k s₂ with
      | ok lines s₃ =>
        rw [hrun] at hprogram
        exact ⟨hk, hmain.mp hprogram, fun hout => hnot (hgrows.mp hout)⟩
      | error e s₃ =>
        rw [hrun] at hprogram
        rcases hprogram with hwords | ⟨hmissing, hnone⟩
        · exact Or.inl hwords
        · refine Or.inr (Or.inr ⟨hk, Or.inl ⟨hmissing, fun hhas => ?_⟩⟩)
          rw [hmain.mpr hhas] at hnone
          cases hnone
  · have hselect : c.chunks.select k s = .error (.config count) s := by
      rw [Chunks.select, bind_of_error hcheck]
    rw [bind_of_error hselect]
    exact Or.inr (Or.inl ⟨⟨count, rfl⟩, hk⟩)

/-- A program that compiles to intermediate code, with words in range, is assembled exactly when the
number of registers is admissible, there is a `main` with a body, and no spill area outgrows its
limit.  Only an inadmissible number of registers is a matter of configuration; what else may fail is
the search for the entry or the room for a spill area, and never a pass for a defect in what the
pass before it made or for want of rounds. -/
theorem assemble_ok_iff (hids : (Lowering.ids (Decl.listThroughout p.decls)).Nodup)
    (hheads : (p.heads.map (·.id)).Nodup) (h : p.compile {} = .ok c s)
    (hwords : ∀ cause s', p.assemble k {} ≠ .error (.overflow cause) s') :
    ((∃ lines s', p.assemble k {} = .ok lines s') ↔
      (3 ≤ k ∧ k ≤ 250) ∧ p.HasMain ∧ ¬ p.Outgrows k) ∧
    ((∃ count s', p.assemble k {} = .error (.config count) s') ↔ ¬ (3 ≤ k ∧ k ≤ 250)) ∧
    (∀ loc defect s', p.assemble k {} ≠ .error (.internal loc defect) s') ∧
    (∀ loc function rounds s',
      p.assemble k {} ≠ .error (.exhausted loc function (.rounds rounds)) s') := by
  have houtcome := assemble_ok_or_reason h hids hheads k
  cases hres : p.assemble k {} with
  | ok lines s₁ =>
    rw [hres] at houtcome
    simp [houtcome]
  | error e s₁ =>
    rw [hres] at houtcome
    rcases houtcome with ⟨cause, rfl⟩ | ⟨⟨count, rfl⟩, hk⟩ | ⟨hk, ⟨rfl, hmain⟩ | ⟨harea, hout⟩⟩
    · exact absurd hres (hwords cause s₁)
    · simp [hk]
    · simp [hk, hmain]
    · obtain ⟨loc, function, bytes, rfl⟩ := harea
      simp [hk, hout]

/-- With three registers a function inside another is assembled, and no spill area outgrows its
limit. -/
theorem assemble_nested :
    (Lowering.ids (Decl.listThroughout nested.decls)).Nodup ∧ (nested.heads.map (·.id)).Nodup ∧
      (∃ lines s', nested.assemble 3 {} = .ok lines s') ∧ nested.HasMain ∧
      ¬ nested.Outgrows 3 := by
  have hrun : ∃ lines s', nested.assemble 3 {} = .ok lines s' := by decide +kernel
  obtain ⟨lines, s', hok⟩ := hrun
  obtain ⟨c, s, hc, -⟩ := bind_ok.mp hok
  have hiff := (assemble_ok_iff (k := 3) (by decide) (by decide) hc
    (fun cause t ht => by rw [hok] at ht; cases ht)).1
  exact ⟨by decide, by decide, ⟨lines, s', hok⟩, (hiff.mp ⟨lines, s', hok⟩).2⟩

end Typed.Program

end MmixBackend
