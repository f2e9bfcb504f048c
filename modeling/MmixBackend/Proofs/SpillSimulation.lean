import MmixBackend.Proofs.Insertion

/-!
# A slot instead of a temporary

Code with a temporary spilled does what it did before.  It executes the same instructions in the same
order on the same values; what it adds touches nothing but new temporaries and the word at the slot.

The invariant between two instructions: temporaries other than the spilled one have their values, the
machine is in the same state apart from the word, and once the temporary has been written the word
is its value.  Before that the temporary is not live, since it is not live at the start, so nothing
reads it.
-/

namespace MmixBackend

open Machine

/-! ## One instruction -/

/-- The temporary can be spilled: it is not the frame pointer, which is never written, no jump writes
it, and as many temporaries were handed out as the code has. -/
structure Code.Spillable (c : Code) (t : Temp) (n : Nat) : Prop where
  fp : ∀ i ∈ c.instrs, c.frame.fp ∉ i.defs
  ne : t ≠ c.frame.fp
  handed : ∀ u ∈ c.temps, u.index < n
  jumps : ∀ i ∈ c.instrs, i.jumps ≠ [] → t ∉ i.defs

section Spillable

variable {c : Code} {t u : Temp} {n : Nat} {i : Instr}

theorem Code.Spillable.fp_lt (h : c.Spillable t n) : c.frame.fp.index < n :=
  h.handed _ (Code.mem_temps.mpr (Or.inr (Or.inl rfl)))

theorem Code.Spillable.lt (h : c.Spillable t n) (hi : i ∈ c.instrs) (hu : u ∈ i.uses ∨ u ∈ i.defs) :
    u.index < n :=
  h.handed u (Code.mem_temps.mpr (Or.inl ⟨i, hi, hu⟩))

end Spillable

/-- The instruction between `xs` and `ys` in the new code: `s` is the spill, `N` temporaries were
handed out before, and in place of the instruction is `i'` at the position `P`. -/
structure Code.SpillsAt (c : Code) (t : Temp) (slot : Word) (n : Nat) (c' : Code) (s : Spill)
    (N P : Nat) (xs : List Instr) (i i' : Instr) (ys : List Instr) : Prop where
  spills : c.SpillsTo t slot n c'
  spill : s = c.spillAt t slot
  count : N = n + (s.news xs n).length
  position : P = (s.codes xs n).length + (s.reads i N).1.length
  itself : i' = i.replace t (s.reads i N).2.1 (s.writes i (N + (s.reads i N).2.2.length)).2.1
  code : c.instrs = xs ++ i :: ys

/-- A moment of the new code stands for one of the code: at the place for its place, the temporaries
other than the spilled one have their values, the machine is in the same state apart from the word
at the slot, and if the temporary was written the word is its value. -/
structure Code.Shadows {M : Type} (c : Code) (t : Temp) (slot : Word) (n : Nat) (mem : Words M)
    (a : Word) (written : Prop) (x x' : Moment Temp Word M) : Prop where
  place : x'.place = (c.spillAt t slot).placed c.instrs n x.place
  values : ∀ u, u.index < n → u ≠ t → x'.values u = x.values u
  state : mem.SameBut a x.state x'.state
  word : written → mem.load x'.state a = x.values t
  address : x.values c.frame.fp + slot = a

theorem Code.Shadows.weaken {M : Type} {c : Code} {t : Temp} {slot : Word} {n : Nat} {mem : Words M}
    {a : Word} {written written' : Prop} {x x' : Moment Temp Word M}
    (h : c.Shadows t slot n mem a written x x') (hw : written' → written) :
    c.Shadows t slot n mem a written' x x' :=
  ⟨h.place, h.values, h.state, fun h' => h.word (hw h'), h.address⟩

namespace Semantics

variable {M : Type} {sem : Semantics Word M} {mem : Words M} {c c' : Code} {t : Temp} {slot : Word}
  {n : Nat} {a : Word} {written : Prop} {x x' : Moment Temp Word M}

/-- From one moment to another goes one way only, past inserted instructions, and the second is where
an execution that ends at a boundary does not end yet. -/
structure Arrives (sem : Semantics Word M) (c : Code) (origin? : Nat → Option Nat)
    (boundary : Successor → Prop) (x y : Moment Temp Word M) : Prop where
  runs : ∃ events, originals origin? events = [] ∧ sem.Executes c x events y
  only : ∀ {events z}, sem.Executes c x events z → boundary z.place → events ≠ [] →
    ∃ inserted rest, events = inserted ++ rest ∧ originals origin? inserted = [] ∧ rest ≠ [] ∧
      sem.Executes c y rest z

theorem arrives_refl (origin? : Nat → Option Nat) (boundary : Successor → Prop)
    (x : Moment Temp Word M) : sem.Arrives c origin? boundary x x :=
  ⟨⟨[], rfl, .stop⟩, fun h _ hne => ⟨[], _, rfl, rfl, hne, h⟩⟩

variable {origin? : Nat → Option Nat} {y z : Moment Temp Word M} {vs : List Word}
  {e e' : Effect Word M} {events : List (Nat × List Word)} {p : Successor}

theorem Passes.arrives {boundary : Successor → Prop} (h : sem.Passes c origin? boundary x y)
    (hy : ¬ boundary y.place) :
    sem.Arrives c origin? boundary x y := by
  refine ⟨h.runs, fun hz hb hne => ?_⟩
  obtain ⟨inserted, rest, heq, hnone, hrest⟩ := h.only hz hb hne
  refine ⟨inserted, rest, heq, hnone, ?_, hrest⟩
  rintro rfl
  cases hrest
  exact hy hb

/-- From one moment to another goes one way only, past inserted instructions, and the first is where
an execution that ends at a boundary does not end. -/
structure Leads (sem : Semantics Word M) (c : Code) (origin? : Nat → Option Nat)
    (boundary : Successor → Prop) (x y : Moment Temp Word M) : Prop where
  runs : ∃ events, originals origin? events = [] ∧ sem.Executes c x events y
  only : ∀ {events z}, sem.Executes c x events z → boundary z.place →
    ∃ inserted rest, events = inserted ++ rest ∧ originals origin? inserted = [] ∧
      sem.Executes c y rest z

theorem leads_refl (origin? : Nat → Option Nat) (boundary : Successor → Prop)
    (x : Moment Temp Word M) : sem.Leads c origin? boundary x x :=
  ⟨⟨[], rfl, .stop⟩, fun h _ => ⟨[], _, rfl, rfl, h⟩⟩

theorem Passes.leads {boundary : Successor → Prop} (h : sem.Passes c origin? boundary x y)
    (hx : ¬ boundary x.place) :
    sem.Leads c origin? boundary x y := by
  refine ⟨h.runs, fun hz hb => h.only hz hb ?_⟩
  rintro rfl
  cases hz
  exact hx hb

/-- Where no instruction from a position on jumps, executions from there stay behind it. -/
theorem Executes.stays {p : Nat}
    (hplain : ∀ q instr, p ≤ q → c.instrs[q]? = some instr → instr.jumps = [])
    {y z : Moment Temp Word M} (h : sem.Executes c y events z) :
    (∃ q, y.place = .instr q ∧ p ≤ q ∧ q < c.instrs.length) →
      ∃ q, z.place = .instr q ∧ p ≤ q ∧ q < c.instrs.length := by
  induction h with
  | stop => exact id
  | @step j instr σ m e r _ _ hinstr hdoes hgo _ ih =>
    rintro ⟨q, hq, hle, -⟩
    obtain rfl : j = q := by injection hq
    refine ih ?_
    have htarget : e.target = none := by
      refine sem.next hdoes ?_
      rw [hplain j instr hle hinstr]
      rfl
    rw [htarget, Code.goTo?] at hgo
    split at hgo
    · next hlt =>
      cases hgo
      exact ⟨j + 1, rfl, Nat.le_succ_of_le hle, hlt⟩
    · cases hgo

theorem exists_append_of_getElem? {is : List Instr} {j : Nat} {i : Instr} (h : is[j]? = some i) :
    ∃ xs ys, is = xs ++ i :: ys ∧ xs.length = j := by
  obtain ⟨hlt, hget⟩ := List.getElem?_eq_some_iff.mp h
  refine ⟨is.take j, is.drop (j + 1), ?_, by simp [Nat.le_of_lt hlt]⟩
  rw [← hget, ← List.drop_eq_getElem_cons hlt, List.take_append_drop]

theorem originals_singleton {V : Type} {p j : Nat} (h : origin? p = some j) (vs : List V) :
    originals origin? [(p, vs)] = [(j, vs)] := by
  simp [originals, h]

section Block

variable {i i' : Instr} {xs ys : List Instr} {s : Spill} {N P : Nat} {σ : Temp → Word} {m : M}

theorem codes_ne_nil (h : ys ≠ []) (k : Nat) : 0 < (s.codes ys k).length := by
  obtain ⟨y, ys, rfl⟩ := List.exists_cons_of_ne_nil h
  simp only [Spill.codes, Spill.code, List.length_append, List.length_cons]
  omega

/-- An instruction reads from the new temporary what it read from the spilled one. -/
theorem map_uses_replace {read w : Temp} {σ σ' : Temp → Word} (hread : t ∈ i.uses → σ' read = σ t)
    (hrest : ∀ u ∈ i.uses, u ≠ t → σ' u = σ u) :
    (i.replace t read w).uses.map σ' = i.uses.map σ := by
  rw [Instr.uses_replace, List.map_map]
  refine List.map_congr_left fun u hu => ?_
  by_cases hut : u = t
  · simp only [Function.comp_apply, if_pos hut]
    rw [hut]
    exact hread (hut ▸ hu)
  · simp only [Function.comp_apply, if_neg hut]
    exact hrest u hu hut

/-- What an instruction writes goes to the new temporary instead of the spilled one, and otherwise
where it went. -/
theorem writeAll_replace (read w : Temp) (σ σ' : Temp → Word) (hlen : vs.length = i.defs.length)
    (hnew : w ∉ i.defs) {u : Temp} (hu : u ≠ t → u ≠ w) (hsame : u ≠ t → σ' u = σ u)
    (hdef : u = t → t ∈ i.defs) :
    writeAll σ' (i.replace t read w).defs vs (if u = t then w else u) = writeAll σ i.defs vs u := by
  rw [Instr.defs_replace]
  refine @writeAll_agree _ _ _ (fun d => some (if d = t then w else d)) u _ rfl _ _ _ _ _
    (by rw [List.map_map]; rfl) hlen (fun d hd hne heq => ?_) ?_
  · have heq : (if d = t then w else d) = if u = t then w else u := Option.some.inj heq
    by_cases hdt : d = t
    · rw [if_pos hdt, if_neg (hdt ▸ Ne.symm hne)] at heq
      exact hu (hdt ▸ Ne.symm hne) heq.symm
    · rw [if_neg hdt] at heq
      by_cases hut : u = t
      · rw [if_pos hut] at heq
        exact hnew (heq ▸ hd)
      · rw [if_neg hut] at heq
        exact hne heq
  · by_cases hut : u = t
    · exact Or.inl (hut ▸ hdef hut)
    · rw [if_neg hut]
      exact Or.inr (hsame hut)

theorem writeAll_of_notMem {κ V : Type} [DecidableEq κ] {k : κ} {ks : List κ} :
    ∀ {vs : List V} {f : κ → V}, k ∉ ks → writeAll f ks vs k = f k := by
  induction ks with
  | nil =>
    intro vs f _
    cases vs <;> rfl
  | cons j ks ih =>
    intro vs f hk
    cases vs with
    | nil => rfl
    | cons v vs =>
      rw [writeAll, ih fun h => hk (List.mem_cons_of_mem _ h)]
      refine if_neg ?_
      rintro rfl
      exact hk List.mem_cons_self

/-- An instruction that writes the spilled temporary is followed by the next one. -/
theorem target_of_written (hsp : c.Spillable t n) (hi : i ∈ c.instrs) (hd : t ∈ i.defs)
    {e : Effect Word M} (hdoes : sem.does i vs m e) : e.target = none := by
  refine sem.next hdoes ?_
  have hjumps : i.jumps = [] := by
    by_contra hj
    exact hsp.jumps i hi hj hd
  rw [hjumps]
  rfl

variable (hsem : sem.Spills mem) (hsp : c.Spillable t n)
  (hat : c.SpillsAt t slot n c' s N P xs i i' ys)

include hat

theorem instrs_spilled :
    c'.instrs = s.codes xs n ++ (s.code i N ++ s.codes ys (N + (s.new i N).length)) := by
  rw [hat.spills.instrs, ← hat.spill, hat.code, Spill.codes_append, ← hat.count]
  rfl

theorem getElem?_spilled :
    c'.instrs[P]? = some i' := by
  rw [hat.position, hat.itself, instrs_spilled hat,
    List.getElem?_append_right (Nat.le_add_right _ _), Nat.add_sub_cancel_left]
  obtain rfl := hat.spill
  simp [Spill.code]

theorem origin?_spilled :
    s.origin? c.instrs n P = some xs.length := by
  rw [hat.position, Spill.origin?_eq hat.code hat.count (by simp [Spill.code]), if_pos rfl]

/-- An instruction that does not write the spilled temporary goes where it went. -/
theorem goTo?_spilled (hd : t ∉ i.defs) (target : Option Label) :
    c'.goTo? P target = (c.goTo? xs.length target).map (s.placed c.instrs n) := by
  cases target with
  | some l =>
    rw [hat.spill]
    exact hat.spills.target? l
  | none =>
    have hP := hat.position
    have hwrites : (s.code i N).length = (s.reads i N).1.length + 1 := by
      simp [Spill.code, Spill.writes, hat.spill, hd]
    have hlen : c'.instrs.length = P + 1 + (s.codes ys (N + (s.new i N).length)).length := by
      rw [instrs_spilled hat, List.length_append, List.length_append, hwrites]
      omega
    have hstart : s.start c.instrs n (xs.length + 1) = P + 1 := by
      rw [hat.code, Spill.start_append_succ, ← hat.count, hwrites, hP, Nat.add_assoc]
    by_cases hys : ys = []
    · rw [Code.goTo?, if_neg (by rw [hlen, hys]; simp [Spill.codes]), Code.goTo?,
        if_neg (by simp [hat.code, hys])]
      rfl
    · have hpos := codes_ne_nil (s := s) hys (N + (s.new i N).length)
      have hmore := List.length_pos_iff.mpr hys
      rw [Code.goTo?, if_pos (by omega), Code.goTo?, if_pos (by simp [hat.code]; omega)]
      simp [Spill.placed, hstart]

/-- An instruction that writes the spilled temporary writes a new one instead. -/
theorem itself_of_written (hd : t ∈ i.defs) :
    i' = i.replace t (s.reads i N).2.1 ⟨N + (s.reads i N).2.2.length⟩ := by
  rw [hat.itself, Spill.writes, if_pos (by rw [hat.spill]; exact hd)]

include hsp

/-- After an instruction that does not write the spilled temporary the new code is at once at the
place for where the code goes. -/
theorem shadows_unwritten (hd : t ∉ i.defs) {σ σ₁ : Temp → Word} {m m' : M} (p : Successor)
    (ha : σ c.frame.fp + slot = a) (hσ₁ : ∀ u, u.index < n → u ≠ t → σ₁ u = σ u)
    (hword : written → mem.load m' a = σ t) (hdoes : sem.does i vs m e)
    (halike : Alike mem a m' e e') :
    c.Shadows t slot n mem a (written ∨ t ∈ i.defs) ⟨p, writeAll σ i.defs e.written, e.state⟩
      ⟨s.placed c.instrs n p, writeAll σ₁ i'.defs e'.written, e'.state⟩ where
  place := by rw [hat.spill]
  values u hu hut := by
    have hsame := writeAll_replace (s.reads i N).2.1 t σ σ₁ (sem.written hdoes) hd (fun h => h)
      (fun _ => hσ₁ u hu hut) (fun h => absurd h hut)
    rw [if_neg hut] at hsame
    rw [halike.written, hat.itself, Spill.writes, if_neg (by rw [hat.spill]; exact hd)]
    obtain rfl := hat.spill
    exact hsame
  state := halike.state
  word h := by
    have hw : written := h.resolve_right hd
    show mem.load e'.state a = writeAll σ i.defs e.written t
    rw [writeAll_of_notMem hd, ← hword hw]
    exact halike.kept
  address := by
    show writeAll σ i.defs e.written c.frame.fp + slot = a
    rw [writeAll_of_notMem (hsp.fp i (by simp [hat.code]))]
    exact ha

/-- Where the new code goes on to a boundary, the code goes on. -/
theorem goTo?_of_boundary (hdoes : sem.does i vs m e) (halike : Alike mem a x'.state e e')
    {p' : Successor} (hgo : c'.goTo? P e'.target = some p') {σ' : Temp → Word} {m' : M}
    (hrun : sem.Executes c' ⟨p', σ', m'⟩ events z) (hend : s.Boundary c.instrs n z.place) :
    ∃ p, c.goTo? xs.length e.target = some p := by
  rw [halike.target] at hgo
  by_cases hd : t ∈ i.defs
  · rw [target_of_written hsp (by simp [hat.code]) hd hdoes] at hgo ⊢
    cases ys with
    | cons y ys => exact ⟨_, Code.goTo?_next (by simp [hat.code])⟩
    | nil =>
      -- behind the last instruction is only its store, which leads to no boundary
      rw [Code.goTo?] at hgo
      split at hgo
      · next hlt =>
        cases hgo
        have hP := hat.position
        have hcode' : c'.instrs = (s.codes xs n ++ ((s.reads i N).1 ++ [i'])) ++
            storeSlot c.frame.fp slot ⟨N + (s.reads i N).2.2.length + 1⟩
              ⟨N + (s.reads i N).2.2.length⟩ := by
          rw [instrs_spilled hat, itself_of_written hat hd]
          simp [Spill.code, Spill.codes, Spill.writes, hat.spill, hd]
        have hplain : ∀ q instr, P + 1 ≤ q → c'.instrs[q]? = some instr → instr.jumps = [] := by
          intro q instr hq hget
          rw [hcode', List.getElem?_append_right (by simp; omega)] at hget
          rcases List.mem_append.mp (List.mem_of_getElem? hget) with hmem | hmem
          · exact (mem_loadConstant hmem).2.2.1
          · obtain rfl := List.mem_singleton.mp hmem
            rfl
        obtain ⟨q, hq, hle, hlt'⟩ := hrun.stays hplain ⟨_, rfl, Nat.le_refl _, hlt⟩
        have hlen : c'.instrs.length = (s.codes xs n).length + (s.code i N).length := by
          rw [instrs_spilled hat]
          simp [Spill.codes]
        rw [hq, show q = (s.codes xs n).length + (q - (s.codes xs n).length) by omega] at hend
        exact absurd hend (Spill.not_boundary hat.code hat.count (by omega) (by omega))
      · cases hgo
  · rw [goTo?_spilled hat hd] at hgo
    obtain ⟨p, hp, -⟩ := Option.map_eq_some_iff.mp hgo
    exact ⟨p, hp⟩

include hsem

/-- What comes before an instruction brings it to where it reads what it read before. -/
theorem arrives_reads {σ σ' : Temp → Word} {m' : M}
    (hvalues : ∀ u, u.index < n → u ≠ t → σ' u = σ u)
    (hword : t ∈ i.uses → mem.load m' (σ c.frame.fp + slot) = σ t) :
    ∃ σ₁, (∀ u, u.index < n → u ≠ t → σ₁ u = σ u) ∧ i'.uses.map σ₁ = i.uses.map σ ∧
      sem.Arrives c' (s.origin? c.instrs n) (s.Boundary c.instrs n)
        ⟨.instr (s.codes xs n).length, σ', m'⟩ ⟨.instr P, σ₁, m'⟩ := by
  have hi : i ∈ c.instrs := by simp [hat.code]
  rw [hat.position, hat.itself]
  by_cases hu : t ∈ i.uses
  · have hNn : n ≤ N := hat.count ▸ Nat.le_add_right _ _
    have hreads : s.reads i N = (loadSlot c.frame.fp slot ⟨N⟩ ⟨N + 1⟩, ⟨N + 1⟩, [⟨N⟩, ⟨N + 1⟩]) := by
      rw [Spill.reads, if_pos (by rw [hat.spill]; exact hu), hat.spill]
    have hne : ∀ u : Temp, u.index < n → u ≠ ⟨N⟩ ∧ u ≠ ⟨N + 1⟩ := by
      intro u hlt
      constructor
      · rintro rfl
        exact absurd hlt (Nat.not_lt_of_le hNn)
      · rintro rfl
        exact absurd hlt (Nat.not_lt_of_le (Nat.le_succ_of_le hNn))
    let rest := i.replace s.temp (s.reads i N).2.1 (s.writes i (N + (s.reads i N).2.2.length)).2.1 ::
      (s.writes i (N + (s.reads i N).2.2.length)).1
    have hblock : s.code i N = loadSlot c.frame.fp slot ⟨N⟩ ⟨N + 1⟩ ++ rest := by
      rw [← show (s.reads i N).1 = loadSlot c.frame.fp slot ⟨N⟩ ⟨N + 1⟩ by rw [hreads]]
      rfl
    have hlen : (loadSlot c.frame.fp slot ⟨N⟩ ⟨N + 1⟩).length < (s.code i N).length := by
      rw [hblock, List.length_append]
      exact Nat.lt_add_of_pos_right (by simp [rest])
    have hcode' : c'.instrs = s.codes xs n ++
        (loadSlot c.frame.fp slot ⟨N⟩ ⟨N + 1⟩ ++ (rest ++ s.codes ys (N + (s.new i N).length))) := by
      rw [instrs_spilled hat, hblock, List.append_assoc]
    have horigin : ∀ k < (loadSlot c.frame.fp slot ⟨N⟩ ⟨N + 1⟩).length,
        s.origin? c.instrs n ((s.codes xs n).length + k) = none := by
      intro k hk
      rw [Spill.origin?_eq hat.code hat.count (Nat.lt_trans hk hlen), hreads,
        if_neg (Nat.ne_of_lt hk)]
    have hinside : ∀ k, 0 < k → k < (loadSlot c.frame.fp slot ⟨N⟩ ⟨N + 1⟩).length →
        ¬ s.Boundary c.instrs n (.instr ((s.codes xs n).length + k)) :=
      fun k hpos hk => Spill.not_boundary hat.code hat.count hpos (Nat.lt_trans hk hlen)
    obtain ⟨σ₁, hvalue, hother, hpass⟩ := passes_loadSlot (σ := σ') (m := m') hsem
      (hne _ hsp.fp_lt).1 hcode' (by simp [rest]) horigin hinside
    have hσ₁ : ∀ u, u.index < n → u ≠ t → σ₁ u = σ u := by
      intro u hlt hut
      rw [hother u (hne u hlt).1 (hne u hlt).2, hvalues u hlt hut]
    refine ⟨σ₁, hσ₁, ?_, ?_⟩
    · refine map_uses_replace (fun _ => ?_) (fun u hmem hut => hσ₁ u (hsp.lt hi (Or.inl hmem)) hut)
      rw [hreads]
      show σ₁ ⟨N + 1⟩ = σ t
      rw [hvalue, hvalues _ hsp.fp_lt (Ne.symm hsp.ne), hword hu]
    · rw [hreads]
      exact hpass.arrives (Spill.not_boundary hat.code hat.count (by simp [loadSlot]) hlen)
  · have hreads : s.reads i N = ([], t, []) := by
      rw [Spill.reads, if_neg (by rw [hat.spill]; exact hu), hat.spill]
    refine ⟨σ', hvalues, ?_, ?_⟩
    · exact map_uses_replace (fun h => absurd h hu)
        (fun u hmem hut => hvalues u (hsp.lt hi (Or.inl hmem)) hut)
    · rw [hreads]
      exact arrives_refl _ _ _

/-- What comes after an instruction that writes the spilled temporary stores it. -/
theorem passes_writes (hys : ys ≠ []) (hd : t ∈ i.defs) {σ : Temp → Word} {m : M} :
    ∃ σ', (∀ u, u.index < n → σ' u = σ u) ∧
      sem.Passes c' (s.origin? c.instrs n) (s.Boundary c.instrs n) ⟨.instr (P + 1), σ, m⟩
        ⟨.instr (s.start c.instrs n (xs.length + 1)), σ',
          mem.store m (σ c.frame.fp + slot) (σ ⟨N + (s.reads i N).2.2.length⟩)⟩ := by
  obtain ⟨K, hK⟩ : ∃ K, K = N + (s.reads i N).2.2.length := ⟨_, rfl⟩
  have hnK : n ≤ K := by
    have hN := hat.count
    omega
  rw [← hK]
  let before := (s.reads i N).1 ++ [i.replace s.temp (s.reads i N).2.1 (s.writes i K).2.1]
  have hwrites : (s.writes i K).1 = storeSlot c.frame.fp slot ⟨K + 1⟩ ⟨K⟩ := by
    rw [Spill.writes, if_pos (by rw [hat.spill]; exact hd), hat.spill]
  have hblock : s.code i N = before ++ storeSlot c.frame.fp slot ⟨K + 1⟩ ⟨K⟩ := by
    rw [← hwrites, hK]
    simp [Spill.code, before, hK]
  have hlen : (s.code i N).length =
      (s.reads i N).1.length + 1 + (storeSlot c.frame.fp slot ⟨K + 1⟩ ⟨K⟩).length := by
    rw [hblock, List.length_append]
    simp [before]
  have hcode' : c'.instrs = (s.codes xs n ++ before) ++
      (storeSlot c.frame.fp slot ⟨K + 1⟩ ⟨K⟩ ++ s.codes ys (N + (s.new i N).length)) := by
    rw [instrs_spilled hat, hblock]
    simp
  have hstart : (s.codes xs n ++ before).length = P + 1 := by
    rw [hat.position]
    simp [before, Nat.add_assoc]
  have hP := hat.position
  have horigin : ∀ k < (storeSlot c.frame.fp slot ⟨K + 1⟩ ⟨K⟩).length,
      s.origin? c.instrs n ((s.codes xs n ++ before).length + k) = none := by
    intro k hk
    rw [hstart, hP, Nat.add_assoc, Nat.add_assoc,
      Spill.origin?_eq hat.code hat.count (by omega), if_neg (by omega)]
  have hinside : ∀ k, 0 < k → k < (storeSlot c.frame.fp slot ⟨K + 1⟩ ⟨K⟩).length →
      ¬ s.Boundary c.instrs n (.instr ((s.codes xs n ++ before).length + k)) := by
    intro k _ hk
    rw [hstart, hP, Nat.add_assoc, Nat.add_assoc]
    exact Spill.not_boundary hat.code hat.count (by omega) (by omega)
  have hnew : ∀ u : Temp, u.index < n → u ≠ ⟨K + 1⟩ := by
    rintro u hlt rfl
    exact absurd hlt (Nat.not_lt_of_le (Nat.le_succ_of_le hnK))
  obtain ⟨σ', hother, hpass⟩ := passes_storeSlot (σ := σ) (m := m) hsem (hnew _ hsp.fp_lt)
    (by simp) hcode' (List.ne_nil_of_length_pos (codes_ne_nil hys _)) horigin hinside
  refine ⟨σ', fun u hlt => hother u (hnew u hlt), ?_⟩
  have hend : s.start c.instrs n (xs.length + 1) =
      (s.codes xs n ++ before).length + (storeSlot c.frame.fp slot ⟨K + 1⟩ ⟨K⟩).length := by
    rw [hat.code, Spill.start_append_succ, ← hat.count, hlen, hstart]
    omega
  rw [hend, ← hstart]
  exact hpass

/-- After an instruction that writes the spilled temporary the new code stores it, and then is at the
place for the next instruction. -/
theorem leads_written (hys : ys ≠ []) (hd : t ∈ i.defs) {σ σ₁ : Temp → Word} {m m' : M}
    (ha : σ c.frame.fp + slot = a) (hσ₁ : ∀ u, u.index < n → u ≠ t → σ₁ u = σ u)
    (hdoes : sem.does i vs m e) (halike : Alike mem a m' e e') :
    ∃ y', sem.Leads c' (s.origin? c.instrs n) (s.Boundary c.instrs n)
        ⟨.instr (P + 1), writeAll σ₁ i'.defs e'.written, e'.state⟩ y' ∧
      c.Shadows t slot n mem a (written ∨ t ∈ i.defs)
        ⟨.instr (xs.length + 1), writeAll σ i.defs e.written, e.state⟩ y' := by
  have hi : i ∈ c.instrs := by simp [hat.code]
  obtain ⟨K, hK⟩ : ∃ K, K = N + (s.reads i N).2.2.length := ⟨_, rfl⟩
  have hitself := itself_of_written hat hd
  rw [← hK] at hitself
  have hnew : ∀ u : Temp, u.index < n → u ≠ ⟨K⟩ := by
    rintro u hu rfl
    have hlt : K < n := hu
    have hN := hat.count
    omega
  have hnotMem : ⟨K⟩ ∉ i.defs := fun h => hnew _ (hsp.lt hi (Or.inr h)) rfl
  obtain ⟨σ₂, hσ₂⟩ : ∃ σ₂, σ₂ = writeAll σ₁ (i.replace t (s.reads i N).2.1 ⟨K⟩).defs e.written :=
    ⟨_, rfl⟩
  have hother : ∀ u, u.index < n → u ≠ t → σ₂ u = writeAll σ i.defs e.written u := by
    intro u hu hut
    have hsame := writeAll_replace (s.reads i N).2.1 ⟨K⟩ σ σ₁ (sem.written hdoes) hnotMem
      (fun _ => hnew u hu) (fun _ => hσ₁ u hu hut) (fun h => absurd h hut)
    rwa [if_neg hut, ← hσ₂] at hsame
  have htemp : σ₂ ⟨K⟩ = writeAll σ i.defs e.written t := by
    have hsame := writeAll_replace (u := t) (s.reads i N).2.1 ⟨K⟩ σ σ₁ (sem.written hdoes)
      hnotMem (fun h => absurd rfl h) (fun h => absurd rfl h) (fun _ => hd)
    rwa [if_pos rfl, ← hσ₂] at hsame
  have haddress : writeAll σ i.defs e.written c.frame.fp + slot = a := by
    rw [writeAll_of_notMem (hsp.fp i hi)]
    exact ha
  obtain ⟨σ', hkeep, hpass⟩ := passes_writes (σ := σ₂) (m := e'.state) hsem hsp hat hys hd
  rw [← hK, hother _ hsp.fp_lt (Ne.symm hsp.ne), haddress, htemp] at hpass
  refine ⟨⟨.instr (s.start c.instrs n (xs.length + 1)), σ',
    mem.store e'.state a (writeAll σ i.defs e.written t)⟩, ?_, ?_, ?_, ?_, ?_, haddress⟩
  · rw [hitself, halike.written, ← hσ₂]
    refine hpass.leads ?_
    rw [hat.position, Nat.add_assoc]
    refine Spill.not_boundary hat.code hat.count (Nat.succ_pos _) ?_
    simp [Spill.code, Spill.writes, hat.spill, hd, storeSlot]
  · rw [hat.spill]
    rfl
  · intro u hu hut
    show σ' u = _
    rw [hkeep u hu, hother u hu hut]
  · exact halike.state.trans Words.sameBut_store
  · intro _
    show mem.load (mem.store _ a _) a = _
    rw [mem.load_store, if_pos rfl]

/-- From a moment that stands for one before an instruction, the new code comes to the instruction. -/
theorem arrives_of_shadows (h : c.Shadows t slot n mem a written ⟨.instr xs.length, σ, m⟩ x')
    (huse : t ∈ i.uses → written) :
    ∃ σ₁, (∀ u, u.index < n → u ≠ t → σ₁ u = σ u) ∧ i'.uses.map σ₁ = i.uses.map σ ∧
      sem.Arrives c' (s.origin? c.instrs n) (s.Boundary c.instrs n) x'
        ⟨.instr P, σ₁, x'.state⟩ := by
  obtain ⟨p', σ', m'⟩ := x'
  have hplace : p' = .instr (s.codes xs n).length := by
    have hp : p' = (c.spillAt t slot).placed c.instrs n (.instr xs.length) := h.place
    rw [hp, ← hat.spill, Spill.placed, hat.code, Spill.start_append]
  rw [hplace]
  refine arrives_reads hsem hsp hat h.values fun hu => ?_
  have haddress : σ c.frame.fp + slot = a := h.address
  rw [haddress]
  exact h.word (huse hu)

/-- After an instruction the new code comes to the place for where the code goes, and what was
written is where it belongs. -/
theorem leads_after {σ₁ : Temp → Word}
    (h : c.Shadows t slot n mem a written ⟨.instr xs.length, σ, m⟩ x')
    (hσ₁ : ∀ u, u.index < n → u ≠ t → σ₁ u = σ u) (hdoes : sem.does i vs m e)
    (halike : Alike mem a x'.state e e') (hgo : c.goTo? xs.length e.target = some p) :
    ∃ p' y', c'.goTo? P e'.target = some p' ∧
      sem.Leads c' (s.origin? c.instrs n) (s.Boundary c.instrs n)
        ⟨p', writeAll σ₁ i'.defs e'.written, e'.state⟩ y' ∧
      c.Shadows t slot n mem a (written ∨ t ∈ i.defs)
        ⟨p, writeAll σ i.defs e.written, e.state⟩ y' := by
  rw [halike.target]
  by_cases hd : t ∈ i.defs
  · rw [target_of_written hsp (by simp [hat.code]) hd hdoes] at hgo ⊢
    rw [Code.goTo?] at hgo
    split at hgo
    · next hlt =>
      cases hgo
      have hys : ys ≠ [] := by
        rintro rfl
        simp [hat.code] at hlt
      have hin : P + 1 < c'.instrs.length := by
        have hP := hat.position
        have hwrites : (s.reads i N).1.length < (s.code i N).length := by simp [Spill.code]
        have hnext := codes_ne_nil (s := s) hys (N + (s.new i N).length)
        rw [instrs_spilled hat, List.length_append, List.length_append]
        omega
      obtain ⟨y', hleads, hshadows⟩ :=
        leads_written hsem hsp hat hys hd h.address hσ₁ hdoes halike
      exact ⟨_, y', Code.goTo?_next hin, hleads, hshadows⟩
    · cases hgo
  · rw [goTo?_spilled hat hd, hgo]
    exact ⟨_, _, rfl, leads_refl _ _ _,
      shadows_unwritten hsp hat hd p h.address hσ₁ h.word hdoes halike⟩

end Block

section Step

theorem exists_spillsAt (hc : c.SpillsTo t slot n c') {j : Nat} {i : Instr}
    (hinstr : c.instrs[j]? = some i) :
    ∃ N P xs i' ys, c.SpillsAt t slot n c' (c.spillAt t slot) N P xs i i' ys ∧ xs.length = j := by
  obtain ⟨xs, ys, hcode, rfl⟩ := exists_append_of_getElem? hinstr
  exact ⟨_, _, xs, _, ys, ⟨hc, rfl, rfl, rfl, rfl, hcode⟩, rfl⟩

variable {i : Instr} {σ : Temp → Word} {m : M} {j : Nat} (hsem : sem.Spills mem)
  (hsp : c.Spillable t n) (hc : c.SpillsTo t slot n c')
  (h : c.Shadows t slot n mem a written ⟨.instr j, σ, m⟩ x') (hinstr : c.instrs[j]? = some i)
  (huse : t ∈ i.uses → written) (hspares : sem.Spares mem a i (i.uses.map σ) m)
include hsem hsp hc h hinstr huse hspares

/-- A step of the code is one of the new code, past what is inserted. -/
theorem forward_step {e : Effect Word M} (hdoes : sem.does i (i.uses.map σ) m e)
    (hgo : c.goTo? j e.target = some p) :
    ∃ events y', originals ((c.spillAt t slot).origin? c.instrs n) events = [(j, i.uses.map σ)] ∧
      sem.Executes c' x' events y' ∧
      c.Shadows t slot n mem a (written ∨ t ∈ i.defs)
        ⟨p, writeAll σ i.defs e.written, e.state⟩ y' := by
  obtain ⟨N, P, xs, i', ys, hat, rfl⟩ := exists_spillsAt hc hinstr
  obtain ⟨e', hdoes', halike⟩ := (hspares x'.state h.state).1 e hdoes
  obtain ⟨σ₁, hσ₁, huses, harrives⟩ := arrives_of_shadows hsem hsp hat h huse
  obtain ⟨before, hbefore, hruns⟩ := harrives.runs
  obtain ⟨p', y', hgo', hleads, hshadows⟩ := leads_after hsem hsp hat h hσ₁ hdoes halike hgo
  obtain ⟨after, hafter, hruns'⟩ := hleads.runs
  -- the instruction itself, between what is inserted
  have hdoes'' : sem.does i' (i'.uses.map σ₁) x'.state e' := by
    rw [huses, hat.itself]
    exact hsem.replace.mpr hdoes'
  have hitself := Semantics.Executes.step (getElem?_spilled hat) hdoes'' hgo' hruns'
  refine ⟨_, y', ?_, hruns.append hitself, hshadows⟩
  rw [originals_append, hbefore, List.nil_append, ← List.singleton_append, originals_append,
    originals_singleton (origin?_spilled hat), hafter, huses, List.append_nil]

/-- Past what is inserted, the new code executes an instruction as the code does. -/
theorem backward_step (hrun : sem.Executes c' x' events z)
    (hend : (c.spillAt t slot).Boundary c.instrs n z.place) (hne : events ≠ []) :
    ∃ e p block rest y', sem.does i (i.uses.map σ) m e ∧ c.goTo? j e.target = some p ∧
      events = block ++ rest ∧ block ≠ [] ∧
      originals ((c.spillAt t slot).origin? c.instrs n) block = [(j, i.uses.map σ)] ∧
      sem.Executes c' y' rest z ∧
      c.Shadows t slot n mem a (written ∨ t ∈ i.defs)
        ⟨p, writeAll σ i.defs e.written, e.state⟩ y' := by
  obtain ⟨N, P, xs, i', ys, hat, rfl⟩ := exists_spillsAt hc hinstr
  obtain ⟨σ₁, hσ₁, huses, harrives⟩ := arrives_of_shadows hsem hsp hat h huse
  obtain ⟨before, rest, rfl, hbefore, hrest, hrun⟩ := harrives.only hrun hend hne
  cases hrun with
  | stop => exact absurd rfl hrest
  | @step _ _ _ _ e' p' rest _ hitself hdoes' hgo' hrun =>
    obtain rfl := Option.some.inj ((getElem?_spilled hat).symm.trans hitself)
    rw [huses] at hdoes' ⊢
    rw [hat.itself] at hdoes'
    obtain ⟨e, hdoes, halike⟩ := (hspares x'.state h.state).2 e' (hsem.replace.mp hdoes')
    obtain ⟨p, hgo⟩ := goTo?_of_boundary hsp hat hdoes halike hgo' hrun hend
    obtain ⟨p'', y', hgo'', hleads, hshadows⟩ := leads_after hsem hsp hat h hσ₁ hdoes halike hgo
    obtain rfl := Option.some.inj (hgo'.symm.trans hgo'')
    obtain ⟨after, rest', rfl, hafter, hrun'⟩ := hleads.only hrun hend
    refine ⟨e, p, before ++ ((P, i.uses.map σ) :: after), rest', y', hdoes, hgo, ?_, by simp, ?_,
      hrun', hshadows⟩
    · rw [List.append_assoc]
      rfl
    · rw [originals_append, hbefore, List.nil_append, ← List.singleton_append, originals_append,
        originals_singleton (origin?_spilled hat), hafter, List.append_nil]

end Step

/-! ## Executions -/

/-- What is live where control goes was live before the instruction, or is written by it. -/
theorem live_step {i : Instr} {j : Nat} {m : M} {e : Effect Word M} (hinstr : c.instrs[j]? = some i)
    (hdoes : sem.does i vs m e) (hgo : c.goTo? j e.target = some p)
    (h : c.LiveBefore (.instr j) t → written) :
    c.LiveBefore p t → written ∨ t ∈ i.defs := by
  intro hp
  by_cases hd : t ∈ i.defs
  · exact Or.inr hd
  · refine Or.inl (h (Code.liveBefore_instr.mpr (Or.inr ⟨?_, p, ?_, hp⟩)))
    · rintro ⟨i', hi', hd'⟩
      obtain rfl := Option.some.inj (hinstr.symm.trans hi')
      exact hd hd'
    · exact Code.mem_flow_successors.mp (mem_successors hinstr hdoes hgo)

/-- Every instruction that an execution from a moment comes to spares the word at an address. -/
def Respects (sem : Semantics Word M) (mem : Words M) (a : Word) (c : Code)
    (x : Moment Temp Word M) : Prop :=
  ∀ events j i σ m, sem.Executes c x events ⟨.instr j, σ, m⟩ → c.instrs[j]? = some i →
    sem.Spares mem a i (i.uses.map σ) m

theorem Respects.step {i : Instr} {j : Nat} {σ : Temp → Word} {m : M} {e : Effect Word M}
    (h : sem.Respects mem a c ⟨.instr j, σ, m⟩) (hinstr : c.instrs[j]? = some i)
    (hdoes : sem.does i (i.uses.map σ) m e) (hgo : c.goTo? j e.target = some p) :
    sem.Respects mem a c ⟨p, writeAll σ i.defs e.written, e.state⟩ :=
  fun _ _ _ _ _ hrun hi => h _ _ _ _ _ (.step hinstr hdoes hgo hrun) hi

/-- Does an execution pass an instruction that writes the temporary? -/
def Wrote (c : Code) (t : Temp) (events : List (Nat × List Word)) : Prop :=
  ∃ event ∈ events, c.Writes t event.1

theorem wrote_cons {i : Instr} {j : Nat} (hinstr : c.instrs[j]? = some i) :
    Wrote c t ((j, vs) :: events) ↔ t ∈ i.defs ∨ Wrote c t events := by
  simp only [Wrote, List.exists_mem_cons_iff, Code.Writes, hinstr, Option.some.injEq, exists_eq_left']

/-- Where the new code goes on there is an instruction of the code. -/
theorem exists_instr (hc : c.SpillsTo t slot n c') (h : c.Shadows t slot n mem a written x x')
    (hrun : sem.Executes c' x' events z) (hne : events ≠ []) :
    ∃ j i, x.place = .instr j ∧ c.instrs[j]? = some i := by
  have hplace := h.place
  cases hrun with
  | stop => exact absurd rfl hne
  | @step q _ _ _ _ _ _ _ hinstr =>
    cases hp : x.place with
    | exit =>
      rw [hp] at hplace
      cases hplace
    | instr j =>
      rw [hp] at hplace
      have hq : q = (c.spillAt t slot).start c.instrs n j := by injection hplace
      cases hj : c.instrs[j]? with
      | some i => exact ⟨j, i, rfl, hj⟩
      | none =>
        have hlen := List.getElem?_eq_none_iff.mp hj
        have hlt := (List.getElem?_eq_some_iff.mp hinstr).1
        rw [hq, hc.instrs, Spill.start, List.take_of_length_le hlen] at hlt
        exact absurd hlt (Nat.lt_irrefl _)

theorem forward (hsem : sem.Spills mem) (hsp : c.Spillable t n) (hc : c.SpillsTo t slot n c')
    (hrun : sem.Executes c x events y) :
    ∀ {written : Prop} {x' : Moment Temp Word M}, c.Shadows t slot n mem a written x x' →
      (c.LiveBefore x.place t → written) → sem.Respects mem a c x →
      ∃ events' y', sem.Executes c' x' events' y' ∧
        originals ((c.spillAt t slot).origin? c.instrs n) events' = events ∧
        c.Shadows t slot n mem a (written ∨ Wrote c t events) y y' := by
  induction hrun with
  | stop =>
    intro written x' h _ _
    exact ⟨[], x', .stop, rfl, h.weaken fun hw => hw.resolve_right (by simp [Wrote])⟩
  | @step j i σ m e p events y hinstr hdoes hgo hrest ih =>
    intro written x' h hlive hspares
    have huse : t ∈ i.uses → written := fun hu =>
      hlive (Code.liveBefore_instr.mpr (Or.inl ⟨i, hinstr, hu⟩))
    obtain ⟨block, y₁, hblock, hruns, h₁⟩ := forward_step hsem hsp hc h hinstr huse
      (hspares [] j i σ m .stop hinstr) hdoes hgo
    obtain ⟨events', y', hruns', hevents, h'⟩ :=
      ih h₁ (live_step hinstr hdoes hgo hlive) (hspares.step hinstr hdoes hgo)
    refine ⟨block ++ events', y', hruns.append hruns', ?_, h'.weaken ?_⟩
    · rw [originals_append, hblock, hevents]
      rfl
    · rw [wrote_cons hinstr, or_assoc]
      exact id

theorem backward (hsem : sem.Spills mem) (hsp : c.Spillable t n) (hc : c.SpillsTo t slot n c') :
    ∀ {k : Nat} {written : Prop} {x x' y' : Moment Temp Word M} {events' : List (Nat × List Word)},
      events'.length ≤ k → c.Shadows t slot n mem a written x x' →
      (c.LiveBefore x.place t → written) → sem.Respects mem a c x →
      sem.Executes c' x' events' y' → (c.spillAt t slot).Boundary c.instrs n y'.place →
      ∃ events y, sem.Executes c x events y ∧
        originals ((c.spillAt t slot).origin? c.instrs n) events' = events ∧
        c.Shadows t slot n mem a (written ∨ Wrote c t events) y y' := by
  intro k
  induction k with
  | zero =>
    intro written x x' y' events' hk h _ _ hrun _
    obtain rfl := List.length_eq_zero_iff.mp (Nat.le_zero.mp hk)
    cases hrun
    exact ⟨[], x, .stop, rfl, h.weaken fun hw => hw.resolve_right (by simp [Wrote])⟩
  | succ k ih =>
    intro written x x' y' events' hk h hlive hspares hrun hend
    by_cases hne : events' = []
    · subst hne
      cases hrun
      exact ⟨[], x, .stop, rfl, h.weaken fun hw => hw.resolve_right (by simp [Wrote])⟩
    · obtain ⟨p, σ, m⟩ := x
      obtain ⟨j, i, rfl, hinstr⟩ : ∃ j i, p = .instr j ∧ c.instrs[j]? = some i :=
        exists_instr hc h hrun hne
      have huse : t ∈ i.uses → written := fun hu =>
        hlive (Code.liveBefore_instr.mpr (Or.inl ⟨i, hinstr, hu⟩))
      obtain ⟨e, p, block, rest, y₁, hdoes, hgo, rfl, hblock, horiginals, hrun₁, h₁⟩ :=
        backward_step hsem hsp hc h hinstr huse (hspares [] j i σ m .stop hinstr) hrun hend hne
      have hshort : rest.length ≤ k := by
        have := List.length_pos_iff.mpr hblock
        rw [List.length_append] at hk
        omega
      obtain ⟨events, y, hruns, hevents, h'⟩ :=
        ih hshort h₁ (live_step hinstr hdoes hgo hlive) (hspares.step hinstr hdoes hgo) hrun₁ hend
      refine ⟨_, y, .step hinstr hdoes hgo hruns, ?_, h'.weaken ?_⟩
      · rw [originals_append, horiginals, hevents]
        rfl
      · rw [wrote_cons hinstr, or_assoc]
        exact id

end Semantics

/-! ## On words -/

/-- Where a jump goes; one on a word goes to the first label unless the word is zero. -/
def Op.target? : Op → List Word → List Label → Option Label
  | .jump _, [], l :: _ => some l
  | .branch _, [v], pos :: neg :: _ => some (if v ≠ 0 then pos else neg)
  | _, _, _ => none

/-- What an instruction does that computes so many words. -/
def computed (count : Nat) (r : List Word × Chip) : Option (Effect Word Chip) :=
  if r.1.length = count then some ⟨r.1, r.2, none⟩ else none

/-- What an instruction does.  Calls are left out. -/
def Instr.effect? (data : String → Word) : Instr → List Word → Chip → Option (Effect Word Chip)
  | .label _, _, x => some ⟨[], x, none⟩
  | .move op _ _, vs, x => (op.compute data vs x).bind (computed 1)
  | .oper op _ defs jumps, vs, x =>
    if jumps.isEmpty || op.isCall then (op.compute data vs x).bind (computed defs.length)
    else (op.target? vs jumps).bind fun l =>
      if defs = [] ∧ l ∈ jumps then some ⟨[], x, some l⟩ else none

theorem computed_eq_some {count : Nat} {r : Option (List Word × Chip)} {e : Effect Word Chip}
    (h : r.bind (computed count) = some e) : e.written.length = count ∧ e.target = none := by
  obtain ⟨r, -, h⟩ := Option.bind_eq_some_iff.mp h
  unfold computed at h
  split at h
  · next hlen =>
    cases h
    exact ⟨hlen, rfl⟩
  · cases h

variable {data : String → Word}

/-- An instruction writes what it defines, and goes to the next one or to one of its labels. -/
theorem Instr.effect?_eq_some {i : Instr} {vs : List Word} {x : Chip} {e : Effect Word Chip}
    (h : i.effect? data vs x = some e) :
    e.written.length = i.defs.length ∧ (i.jumps.isEmpty || i.isCall → e.target = none) ∧
      (¬ (i.jumps.isEmpty || i.isCall) → ∃ l ∈ i.jumps, e.target = some l) := by
  cases i with
  | label l =>
    cases h
    exact ⟨rfl, fun _ => rfl, fun h => absurd rfl h⟩
  | move op dst src =>
    obtain ⟨hlen, htarget⟩ := computed_eq_some h
    exact ⟨hlen, fun _ => htarget, fun h => absurd rfl h⟩
  | oper op uses defs jumps =>
    rw [Instr.effect?] at h
    split at h
    · next hnext =>
      obtain ⟨hlen, htarget⟩ := computed_eq_some h
      exact ⟨hlen, fun _ => htarget, fun h => absurd hnext h⟩
    · next hjump =>
      obtain ⟨l, -, h⟩ := Option.bind_eq_some_iff.mp h
      split at h
      · next hl =>
        cases h
        exact ⟨by simp [Instr.defs, hl.1], fun h => absurd h hjump, fun _ => ⟨l, hl.2, rfl⟩⟩
      · cases h

/-- Instructions as operations on words. -/
def processor (data : String → Word) : Semantics Word Chip where
  does i vs x e := i.effect? data vs x = some e
  written h := (Instr.effect?_eq_some h).1
  next h := (Instr.effect?_eq_some h).2.1
  jump h := (Instr.effect?_eq_some h).2.2

theorem Machine.Memory.store_store (m : Memory) (a v w : Word) :
    (m.store a v).store a w = m.store a w := by
  unfold Memory.store
  congr 1
  refine Std.ExtTreeMap.ext_getElem? fun b => ?_
  simp only [Std.ExtTreeMap.getElem?_insert]
  split <;> rfl

def Chip.words : Words Chip where
  load x a := x.world.memory.load a
  store := Chip.store
  load_store x a v b := x.world.memory.load_store a v b
  store_store x a v w := by simp [Chip.store, Memory.store_store]

theorem processor_spills (data : String → Word) : (processor data).Spills Chip.words where
  replace {i t read written vs x e} := by
    cases i with
    | label | move => rfl
    | oper op uses defs jumps =>
      show Instr.effect? data (.oper op _ (defs.map _) jumps) vs x = some e ↔ _
      simp only [processor, Instr.effect?, List.length_map, List.map_eq_nil_iff]
  constant {step t σ x e} := by
    cases step <;> exact ⟨fun h => (Option.some.inj h).symm, fun h => by rw [h]; rfl⟩
  load := ⟨fun h => (Option.some.inj h).symm, fun h => by rw [h]; rfl⟩
  store := ⟨fun h => (Option.some.inj h).symm, fun h => by rw [h]; rfl⟩

/-- Executes so many instructions. -/
def Code.follow? (data : String → Word) (c : Code) :
    Nat → Moment Temp Word Chip → Option (List (Nat × List Word) × Moment Temp Word Chip)
  | 0, x => some ([], x)
  | k + 1, ⟨.instr i, σ, x⟩ => do
    let instr ← c.instrs[i]?
    let e ← instr.effect? data (instr.uses.map σ) x
    let p ← c.goTo? i e.target
    let (events, y) ← c.follow? data k ⟨p, writeAll σ instr.defs e.written, e.state⟩
    return ((i, instr.uses.map σ) :: events, y)
  | _ + 1, ⟨.exit, _, _⟩ => none

theorem Code.executes_of_follow? {c : Code} :
    ∀ {k : Nat} {x y : Moment Temp Word Chip} {events : List (Nat × List Word)},
      c.follow? data k x = some (events, y) → (processor data).Executes c x events y := by
  intro k
  induction k with
  | zero =>
    intro x y events h
    cases h
    exact .stop
  | succ k ih =>
    intro x y events h
    obtain ⟨p, σ, m⟩ := x
    cases p with
    | exit => cases h
    | instr i =>
      simp only [Code.follow?, Option.bind_eq_bind, Option.bind_eq_some_iff, Option.pure_def] at h
      obtain ⟨instr, hinstr, e, hdoes, p, hgo, ⟨rest, z⟩, hrest, h⟩ := h
      cases h
      exact .step hinstr hdoes hgo (ih hrest)

/-- An instruction whose effect does not depend on the state spares every word. -/
theorem spares_of_still {i : Instr} {vs : List Word} {r : Option (List Word × Option Label)}
    (h : ∀ x, i.effect? data vs x = r.map fun r => ⟨r.1, x, r.2⟩) (a : Word) (x : Chip) :
    (processor data).Spares Chip.words a i vs x := by
  intro x' hx
  constructor
  · intro e he
    obtain ⟨r, rfl, rfl⟩ := Option.map_eq_some_iff.mp ((h x).symm.trans he)
    exact ⟨⟨r.1, x', r.2⟩, (h x'), rfl, rfl, hx, rfl⟩
  · intro e he
    obtain ⟨r, rfl, rfl⟩ := Option.map_eq_some_iff.mp ((h x').symm.trans he)
    exact ⟨⟨r.1, x, r.2⟩, (h x), rfl, rfl, hx, rfl⟩

/-! ## Spilling -/

/-- Spilling keeps what code does.  Let a temporary other than the frame pointer be spilled that is
not live at the start and that no jump writes, in code that never writes the frame pointer and whose
temporaries were handed out.  Then in every semantics in which instructions act on the values they
read, from moments with the same values of the other temporaries and the same state apart from the
word at the slot, and provided that no instruction executed reads or writes that word, the new code
executes the same instructions on the same values as the code did: each execution of the one is one
of the other, and at the ends the other temporaries have the same values, the states are the same
apart from the word, and the word is the value of the temporary if an instruction has written it. -/
theorem Code.spill_simulates {c c' : Code} {t : Temp} {st st' : Session} {slot : Word}
    {new : List Temp} (h : c.spill t st = .ok (c', slot, new) st')
    (hfp : ∀ i ∈ c.instrs, c.frame.fp ∉ i.defs) (ht : t ≠ c.frame.fp)
    (hlive : t ∉ c.liveness.liveIn.getD 0 ∅) (hnames : ∀ u ∈ c.temps, st.names.HasTemp u)
    (hjumps : ∀ i ∈ c.instrs, i.jumps ≠ [] → t ∉ i.defs) {M : Type} {sem : Semantics Word M}
    {mem : Words M} (hsem : sem.Spills mem) {σ σ' : Temp → Word} {m m' : M}
    (hvalues : ∀ u, st.names.HasTemp u → u ≠ t → σ' u = σ u)
    (hstate : mem.SameBut (σ c.frame.fp + slot) m m')
    (hspares : sem.Respects mem (σ c.frame.fp + slot) c ⟨.instr 0, σ, m⟩) :
    (∀ events y, sem.Executes c ⟨.instr 0, σ, m⟩ events y →
      ∃ events' y', sem.Executes c' ⟨.instr 0, σ', m'⟩ events' y' ∧
        Semantics.originals ((c.spillAt t slot).origin? c.instrs st.names.temps) events' = events ∧
        c.Shadows t slot st.names.temps mem (σ c.frame.fp + slot) (Semantics.Wrote c t events) y y') ∧
    ∀ events' y', sem.Executes c' ⟨.instr 0, σ', m'⟩ events' y' →
      (c.spillAt t slot).Boundary c.instrs st.names.temps y'.place →
      ∃ events y, sem.Executes c ⟨.instr 0, σ, m⟩ events y ∧
        Semantics.originals ((c.spillAt t slot).origin? c.instrs st.names.temps) events' = events ∧
        c.Shadows t slot st.names.temps mem (σ c.frame.fp + slot) (Semantics.Wrote c t events)
          y y' := by
  have hc : c.SpillsTo t slot st.names.temps c' := by
    rw [Code.spill_eq] at h
    split at h
    · cases h
    · cases h
      exact ⟨rfl, rfl⟩
  have hsp : c.Spillable t st.names.temps := ⟨hfp, ht, hnames, hjumps⟩
  have hstart : c.Shadows t slot st.names.temps mem (σ c.frame.fp + slot) False
      ⟨.instr 0, σ, m⟩ ⟨.instr 0, σ', m'⟩ :=
    ⟨rfl, hvalues, hstate, False.elim, rfl⟩
  have hnotLive : c.LiveBefore (.instr 0) t → False := fun hl => hlive (Code.isLiveIn_iff.mpr hl)
  constructor
  · intro events y hrun
    obtain ⟨events', y', hrun', hevents, hy⟩ :=
      Semantics.forward hsem hsp hc hrun hstart hnotLive hspares
    exact ⟨events', y', hrun', hevents, hy.weaken Or.inr⟩
  · intro events' y' hrun hend
    obtain ⟨events, y, hrun', hevents, hy⟩ :=
      Semantics.backward hsem hsp hc (Nat.le_refl _) hstart hnotLive hspares hrun hend
    exact ⟨events, y, hrun', hevents, hy.weaken Or.inr⟩

/-- Doubles five twice, in a loop. -/
def doubling : Code where
  name := "_doubling"
  frame := ⟨⟨0⟩, 0, 0, 0, 0, ⟨0⟩, ⟨1⟩⟩
  entry := ⟨1⟩
  exit := ⟨2⟩
  instrs := [
    .oper (.setLow 2) [] [⟨3⟩] [], .oper (.setLow 5) [] [⟨2⟩] [], .label ⟨3⟩,
    .oper (.arith .add) [⟨2⟩, ⟨2⟩] [⟨2⟩] [], .oper (.setLow 1) [] [⟨4⟩] [],
    .oper (.arith .sub) [⟨3⟩, ⟨4⟩] [⟨3⟩] [], .oper (.branch "L3") [⟨3⟩] [] [⟨3⟩, ⟨4⟩], .label ⟨4⟩,
    .move .copy ⟨1⟩ ⟨2⟩, .oper (.jump "L2") [] [] [⟨2⟩]]

theorem doubling_handed : ∀ t ∈ doubling.temps, t.index < 5 := by
  intro t ht
  rcases Code.mem_temps.mp ht with ⟨i, hi, ht⟩ | rfl | rfl
  · have hall : ∀ i ∈ doubling.instrs, ∀ t ∈ i.uses ++ i.defs, t.index < 5 := by decide
    exact hall i hi t (List.mem_append.mpr ht)
  · decide
  · decide

/-- None of its instructions touches memory. -/
theorem doubling_spares (data : String → Word) {i : Instr} (hi : i ∈ doubling.instrs)
    (vs : List Word) (a : Word) (x : Chip) : (processor data).Spares Chip.words a i vs x := by
  have hbranch : ∀ (v : Word) (x : Chip),
      (Instr.oper (.branch "L3") [⟨3⟩] [] [⟨3⟩, ⟨4⟩]).effect? data [v] x =
        some ⟨[], x, some (if v ≠ 0 then ⟨3⟩ else ⟨4⟩)⟩ := by
    intro v x
    by_cases hv : v = 0 <;> simp [Instr.effect?, Op.target?, Op.isCall, hv]
  simp only [doubling, List.mem_cons, List.not_mem_nil, or_false] at hi
  rcases vs with _ | ⟨v, _ | ⟨w, _ | ⟨u, vs⟩⟩⟩ <;>
    rcases hi with rfl | rfl | rfl | rfl | rfl | rfl | rfl | rfl | rfl | rfl <;>
      first
        | exact spares_of_still (r := none) (fun _ => rfl) a x
        | exact spares_of_still (r := some (_, _)) (fun _ => rfl) a x
        | exact spares_of_still (r := some (_, _)) (hbranch v) a x

/-- With the number spilled that is doubled, read twice and written in one instruction of the loop,
the code returns twenty all the same, and twenty is in the slot. -/
theorem Code.spill_simulates_doubling :
    ∃ c' slot new st', doubling.spill ⟨2⟩ { names := { temps := 5 } } = .ok (c', slot, new) st' ∧
      ∃ events y, (processor fun _ => 0).Executes c'
          ⟨.instr 0, fun _ => 4096, ⟨0, ⟨{}, 0, 0, [], []⟩⟩⟩ events y ∧
        y.place = .exit ∧ y.values ⟨1⟩ = 20 ∧ y.state.world.memory.load (4096 + slot) = 20 := by
  obtain ⟨c', slot, new, st', h⟩ : ∃ c' slot new st',
      doubling.spill ⟨2⟩ { names := { temps := 5 } } = .ok (c', slot, new) st' := ⟨_, _, _, _, rfl⟩
  refine ⟨c', slot, new, st', h, ?_⟩
  have hfollow : (doubling.follow? (fun _ => 0) 15
      ⟨.instr 0, fun _ => 4096, ⟨0, ⟨{}, 0, 0, [], []⟩⟩⟩).map (fun r =>
        (r.2.place, r.2.values ⟨1⟩, r.2.values ⟨2⟩, r.1.map Prod.fst)) =
      some (.exit, 20, 20, [0, 1, 2, 3, 4, 5, 6, 2, 3, 4, 5, 6, 7, 8, 9]) := by
    decide +kernel
  obtain ⟨⟨events, y⟩, hrun, hy⟩ := Option.map_eq_some_iff.mp hfollow
  simp only [Prod.mk.injEq] at hy
  obtain ⟨hplace, hrv, htemp, hevents⟩ := hy
  obtain ⟨event, hmem, hevent⟩ := List.mem_map.mp
    (show 1 ∈ events.map Prod.fst by rw [hevents]; decide)
  obtain ⟨events', y', hrun', -, hy⟩ := (Code.spill_simulates h (by decide) (by decide)
    (by decide +kernel) doubling_handed (by decide) (processor_spills _) (fun _ _ _ => rfl) rfl
    (fun _ _ _ _ _ _ hi => doubling_spares _ (List.mem_of_getElem? hi) _ _ _)).1 events y
    (Code.executes_of_follow? hrun)
  refine ⟨events', y', hrun', ?_, ?_, ?_⟩
  · rw [hy.place, hplace]
    rfl
  · rw [hy.values ⟨1⟩ (by decide) (by decide), hrv]
  · refine (hy.word ⟨event, hmem, ?_⟩).trans htemp
    rw [hevent]
    exact ⟨_, rfl, List.mem_singleton_self _⟩

end MmixBackend
