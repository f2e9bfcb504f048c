import MmixBackend.Proofs.Liveness
import MmixBackend.Proofs.Pass
import MmixBackend.Target.Allocation

/-!
# Spilling

What a spill does to code: each instruction that reads the temporary gets a load before it, each
that writes it a store after it, and the temporary is gone.  The temporaries that come in are
new.  Everything else stays, so that a spill keeps what allocation relies on: the frame pointer
is not written, and no spilled temporary is mentioned.
-/

namespace MmixBackend

/-! ## Replacing a temporary -/

namespace Instr

variable {t read written u : Temp} {i : Instr}

theorem uses_replace (t read written : Temp) (i : Instr) :
    (i.replace t read written).uses = i.uses.map fun u => if u = t then read else u := by
  cases i <;> rfl

theorem defs_replace (t read written : Temp) (i : Instr) :
    (i.replace t read written).defs = i.defs.map fun d => if d = t then written else d := by
  cases i <;> rfl

theorem mem_map_replace {ts : List Temp} {r : Temp} :
    u ∈ ts.map (fun v => if v = t then r else v) ↔ u = r ∧ t ∈ ts ∨ u ∈ ts ∧ u ≠ t := by
  rw [List.mem_map]
  constructor
  · rintro ⟨v, hv, hu⟩
    split at hu
    · next h => exact Or.inl ⟨hu.symm, h ▸ hv⟩
    · next h => exact Or.inr ⟨hu ▸ hv, hu ▸ h⟩
  · rintro (⟨rfl, ht⟩ | ⟨hu, hne⟩)
    · exact ⟨t, ht, if_pos rfl⟩
    · exact ⟨u, hu, if_neg hne⟩

theorem mem_uses_replace :
    u ∈ (i.replace t read written).uses ↔ u = read ∧ t ∈ i.uses ∨ u ∈ i.uses ∧ u ≠ t := by
  rw [uses_replace, mem_map_replace]

theorem mem_defs_replace :
    u ∈ (i.replace t read written).defs ↔ u = written ∧ t ∈ i.defs ∨ u ∈ i.defs ∧ u ≠ t := by
  rw [defs_replace, mem_map_replace]

theorem replace_of_notMem (hu : t ∉ i.uses) (hd : t ∉ i.defs) :
    i.replace t read written = i := by
  have hmap : ∀ (r : Temp) (ts : List Temp), t ∉ ts →
      ts.map (fun v => if v = t then r else v) = ts := by
    intro r ts hts
    refine (List.map_congr_left fun v hv => if_neg ?_).trans (List.map_id ts)
    rintro rfl
    exact hts hv
  cases i with
  | oper op uses defs jumps =>
    show Instr.oper op _ _ jumps = _
    rw [hmap read uses hu, hmap written defs hd]
  | move op dst src =>
    have hdst : dst ≠ t := fun h => hd (by simp [defs, h])
    have hsrc : src ≠ t := fun h => hu (by simp [uses, h])
    simp only [replace, if_neg hdst, if_neg hsrc]
  | label l => rfl

end Instr

/-! ## Constants -/

/-- A constant is put into a temporary by instructions that mention nothing else. -/
theorem mem_loadConstant {t : Temp} {v : Word} {i : Instr} (h : i ∈ loadConstant t v) :
    (∀ u ∈ i.uses, u = t) ∧ i.defs = [t] ∧ i.jumps = [] ∧ i.isCall = false := by
  obtain ⟨step, -, rfl⟩ := List.mem_map.mp h
  cases step <;> simp [ConstantStep.instr, Instr.uses, Instr.defs, Instr.jumps, Instr.isCall,
    Op.isCall]

/-- The first of these instructions reads nothing. -/
theorem loadConstant_eq (t : Temp) (v : Word) :
    ∃ n rest, loadConstant t v = .oper (.setLow n) [] [t] [] :: rest :=
  ⟨_, _, rfl⟩

/-! ## Slots -/

/-- A load of a slot into a temporary, by way of another one for its offset. -/
def loadSlot (fp : Temp) (slot : Word) (offset value : Temp) : List Instr :=
  loadConstant offset slot ++ [.oper .loadSum [fp, offset] [value] []]

/-- A store of a temporary into a slot. -/
def storeSlot (fp : Temp) (slot : Word) (offset value : Temp) : List Instr :=
  loadConstant offset slot ++ [.oper .storeSum [value, fp, offset] [] []]

section Slots

variable {fp offset value : Temp} {slot : Word} {j : Instr}

/-- A load reads the frame pointer and the offset, and writes the offset and the value. -/
theorem mem_loadSlot (h : j ∈ loadSlot fp slot offset value) :
    (∀ u ∈ j.uses, u = fp ∨ u = offset) ∧ ∀ d ∈ j.defs, d = offset ∨ d = value := by
  rcases List.mem_append.mp h with h | h
  · obtain ⟨hu, hd, -, -⟩ := mem_loadConstant h
    exact ⟨fun u hj => Or.inr (hu u hj), fun d hj => Or.inl (by simpa [hd] using hj)⟩
  · obtain rfl := List.mem_singleton.mp h
    simp [Instr.uses, Instr.defs]

/-- A store reads the value, the frame pointer and the offset, and writes the offset. -/
theorem mem_storeSlot (h : j ∈ storeSlot fp slot offset value) :
    (∀ u ∈ j.uses, u = value ∨ u = fp ∨ u = offset) ∧ ∀ d ∈ j.defs, d = offset := by
  rcases List.mem_append.mp h with h | h
  · obtain ⟨hu, hd, -, -⟩ := mem_loadConstant h
    exact ⟨fun u hj => Or.inr (Or.inr (hu u hj)), fun d hj => by simpa [hd] using hj⟩
  · obtain rfl := List.mem_singleton.mp h
    simp [Instr.uses, Instr.defs]

end Slots

namespace Spill

/-! ## One instruction -/

variable {s : Spill} {i : Instr} {st st' : Session} {n : Nat}

/-- What comes before an instruction, the temporary it reads instead, and the new ones, with so many
handed out. -/
def reads (s : Spill) (i : Instr) (n : Nat) : List Instr × Temp × List Temp :=
  if s.temp ∈ i.uses then
    (loadSlot s.fp s.offset ⟨n⟩ ⟨n + 1⟩, ⟨n + 1⟩, [⟨n⟩, ⟨n + 1⟩])
  else ([], s.temp, [])

/-- What comes after an instruction, the temporary it writes instead, and the new ones. -/
def writes (s : Spill) (i : Instr) (n : Nat) : List Instr × Temp × List Temp :=
  if s.temp ∈ i.defs then
    (storeSlot s.fp s.offset ⟨n + 1⟩ ⟨n⟩, ⟨n⟩, [⟨n⟩, ⟨n + 1⟩])
  else ([], s.temp, [])

/-- The instructions for one instruction. -/
def code (s : Spill) (i : Instr) (n : Nat) : List Instr :=
  let r := s.reads i n
  let w := s.writes i (n + r.2.2.length)
  r.1 ++ i.replace s.temp r.2.1 w.2.1 :: w.1

def new (s : Spill) (i : Instr) (n : Nat) : List Temp :=
  (s.reads i n).2.2 ++ (s.writes i (n + (s.reads i n).2.2.length)).2.2

/-- The session with so many more temporaries handed out. -/
abbrev more (st : Session) (k : Nat) : Session :=
  { st with names := { st.names with temps := st.names.temps + k } }

theorem instr_eq (s : Spill) (i : Instr) (st : Session) :
    s.instr i st =
      .ok (s.code i st.names.temps, s.new i st.names.temps)
        (more st (s.new i st.names.temps).length) := by
  unfold Spill.instr Spill.code Spill.new
  by_cases hu : s.temp ∈ i.uses <;> by_cases hd : s.temp ∈ i.defs
  · simp only [reads, writes, if_pos hu, if_pos hd, List.contains_iff_mem]
    rfl
  · simp only [reads, writes, if_pos hu, if_neg hd, List.contains_iff_mem]
    rfl
  · simp only [reads, writes, if_neg hu, if_pos hd, List.contains_iff_mem]
    rfl
  · simp only [reads, writes, if_neg hu, if_neg hd, List.contains_iff_mem]
    rfl

theorem mem_new {u : Temp} (h : u ∈ s.new i n) :
    n ≤ u.index ∧ u.index < n + (s.new i n).length := by
  unfold new at h ⊢
  unfold reads writes at h ⊢
  by_cases hu : s.temp ∈ i.uses <;> by_cases hd : s.temp ∈ i.defs <;>
    simp only [hu, hd, if_true, if_false, List.length_cons, List.length_nil, List.cons_append,
      List.nil_append, List.mem_cons, List.not_mem_nil, or_false] at h ⊢
  · rcases h with rfl | rfl | rfl | rfl <;> dsimp only <;> omega
  · rcases h with rfl | rfl <;> dsimp only <;> omega
  · rcases h with rfl | rfl <;> dsimp only <;> omega

theorem new_nodup (s : Spill) (i : Instr) (n : Nat) : (s.new i n).Nodup := by
  unfold new reads writes
  by_cases hu : s.temp ∈ i.uses <;> by_cases hd : s.temp ∈ i.defs
  · simp [hu, hd]
    omega
  · simp [hu, hd]
  · simp [hu, hd]
  · simp [hu, hd]

/-- What comes before mentions the frame pointer and new temporaries, and so does the temporary that
is read instead. -/
theorem reads_spec (s : Spill) (i : Instr) (n : Nat) :
    (∀ j ∈ (s.reads i n).1,
      (∀ u ∈ j.uses, u = s.fp ∨ u ∈ (s.reads i n).2.2) ∧ ∀ d ∈ j.defs, d ∈ (s.reads i n).2.2) ∧
      (s.temp ∈ i.uses → (s.reads i n).2.1 ∈ (s.reads i n).2.2) := by
  unfold reads
  split
  · refine ⟨fun j hj => ?_, fun _ => by simp⟩
    obtain ⟨hu, hd⟩ := mem_loadSlot hj
    exact ⟨fun u h => (hu u h).imp_right fun h => by simp [h],
      fun d h => by rcases hd d h with h | h <;> simp [h]⟩
  · next h => exact ⟨fun j hj => (by cases hj), fun h' => absurd h' h⟩

theorem writes_spec (s : Spill) (i : Instr) (n : Nat) :
    (∀ j ∈ (s.writes i n).1,
      (∀ u ∈ j.uses, u = s.fp ∨ u ∈ (s.writes i n).2.2) ∧
        ∀ d ∈ j.defs, d ∈ (s.writes i n).2.2) ∧
      (s.temp ∈ i.defs → (s.writes i n).2.1 ∈ (s.writes i n).2.2) := by
  unfold writes
  split
  · refine ⟨fun j hj => ?_, fun _ => by simp⟩
    obtain ⟨hu, hd⟩ := mem_storeSlot hj
    exact ⟨fun u h => by rcases hu u h with h | h | h <;> simp [h], fun d h => by simp [hd d h]⟩
  · next h => exact ⟨fun j hj => (by cases hj), fun h' => absurd h' h⟩

/-- What the code for an instruction mentions is the frame pointer, new, or was mentioned before and
is not spilled. -/
theorem mem_code {j : Instr} (h : j ∈ s.code i n) :
    (∀ u ∈ j.uses, u = s.fp ∨ u ∈ s.new i n ∨ u ∈ i.uses ∧ u ≠ s.temp) ∧
      ∀ d ∈ j.defs, d ∈ s.new i n ∨ d ∈ i.defs ∧ d ≠ s.temp := by
  obtain ⟨hreads, hread⟩ := s.reads_spec i n
  obtain ⟨hwrites, hwritten⟩ := s.writes_spec i (n + (s.reads i n).2.2.length)
  rw [new]
  simp only [List.mem_append]
  rcases List.mem_append.mp h with h | h
  · obtain ⟨hu, hd⟩ := hreads j h
    exact ⟨fun u hj => (hu u hj).imp_right fun h => Or.inl (Or.inl h),
      fun d hj => Or.inl (Or.inl (hd d hj))⟩
  · rcases List.mem_cons.mp h with rfl | h
    · constructor
      · intro u hu
        rcases Instr.mem_uses_replace.mp hu with ⟨rfl, ht⟩ | hu
        · exact Or.inr (Or.inl (Or.inl (hread ht)))
        · exact Or.inr (Or.inr hu)
      · intro d hd
        rcases Instr.mem_defs_replace.mp hd with ⟨rfl, ht⟩ | hd
        · exact Or.inl (Or.inr (hwritten ht))
        · exact Or.inr hd
    · obtain ⟨hu, hd⟩ := hwrites j h
      exact ⟨fun u hj => (hu u hj).imp_right fun h => Or.inl (Or.inr h),
        fun d hj => Or.inl (Or.inr (hd d hj))⟩

/-! ## Instructions in order -/

def codes (s : Spill) : List Instr → Nat → List Instr
  | [], _ => []
  | i :: is, n => s.code i n ++ s.codes is (n + (s.new i n).length)

def news (s : Spill) : List Instr → Nat → List Temp
  | [], _ => []
  | i :: is, n => s.new i n ++ s.news is (n + (s.new i n).length)

theorem instrs_eq (s : Spill) (is : List Instr) :
    ∀ st : Session, s.instrs is st =
      .ok (s.codes is st.names.temps, s.news is st.names.temps)
        (more st (s.news is st.names.temps).length) := by
  induction is with
  | nil => exact fun _ => rfl
  | cons i is ih =>
    intro st
    have hrest := ih (more st (s.new i st.names.temps).length)
    have hinstr := instr_eq s i st
    unfold Spill.instrs
    simp only [bind, EStateM.bind, hinstr, hrest, pure, EStateM.pure, codes, news, more,
      List.length_append, Nat.add_assoc]

theorem mem_news (is : List Instr) {u : Temp} :
    ∀ {n : Nat}, u ∈ s.news is n → n ≤ u.index ∧ u.index < n + (s.news is n).length := by
  induction is with
  | nil => exact fun h => by cases h
  | cons i is ih =>
    intro n h
    rw [news, List.length_append]
    rcases List.mem_append.mp h with h | h
    · have := mem_new h
      omega
    · have := ih h
      omega

theorem news_nodup (is : List Instr) : ∀ n : Nat, (s.news is n).Nodup := by
  induction is with
  | nil => exact fun _ => List.nodup_nil
  | cons i is ih =>
    intro n
    refine List.nodup_append.mpr ⟨new_nodup s i n, ih _, fun t ht u hu => ?_⟩
    rintro rfl
    exact absurd (mem_new ht).2 (Nat.not_lt_of_le (mem_news is hu).1)

theorem news_append (xs ys : List Instr) :
    ∀ n : Nat, s.news (xs ++ ys) n = s.news xs n ++ s.news ys (n + (s.news xs n).length) := by
  induction xs with
  | nil => exact fun _ => rfl
  | cons i xs ih =>
    intro n
    simp only [List.cons_append, news, ih, List.length_append, List.append_assoc, Nat.add_assoc]

theorem codes_append (xs ys : List Instr) :
    ∀ n : Nat, s.codes (xs ++ ys) n = s.codes xs n ++ s.codes ys (n + (s.news xs n).length) := by
  induction xs with
  | nil => exact fun _ => rfl
  | cons i xs ih =>
    intro n
    simp only [List.cons_append, codes, news, ih, List.length_append, List.append_assoc,
      Nat.add_assoc]

theorem codes_of_notMem {is : List Instr} (h : ∀ i ∈ is, s.temp ∉ i.uses ∧ s.temp ∉ i.defs) :
    ∀ n : Nat, s.codes is n = is ∧ s.news is n = [] := by
  induction is with
  | nil => exact fun _ => ⟨rfl, rfl⟩
  | cons i is ih =>
    intro n
    obtain ⟨hu, hd⟩ := h i List.mem_cons_self
    obtain ⟨hcodes, hnews⟩ := ih (fun j hj => h j (List.mem_cons_of_mem _ hj)) n
    have hnew : s.new i n = [] := by simp [new, reads, writes, hu, hd]
    have hcode : s.code i n = [i] := by
      simp [code, reads, writes, hu, hd, Instr.replace_of_notMem hu hd]
    rw [codes, news, hnew, hcode]
    exact ⟨congrArg (i :: ·) hcodes, hnews⟩

theorem mem_codes (is : List Instr) {j : Instr} :
    ∀ {n : Nat}, j ∈ s.codes is n →
      (∀ u ∈ j.uses, u = s.fp ∨ u ∈ s.news is n ∨ (∃ i ∈ is, u ∈ i.uses) ∧ u ≠ s.temp) ∧
        ∀ d ∈ j.defs, d ∈ s.news is n ∨ (∃ i ∈ is, d ∈ i.defs) ∧ d ≠ s.temp := by
  induction is with
  | nil => exact fun h => by cases h
  | cons i is ih =>
    intro n h
    simp only [news, List.mem_append, List.exists_mem_cons_iff]
    rcases List.mem_append.mp h with h | h
    · obtain ⟨hu, hd⟩ := mem_code h
      constructor
      · intro u hj
        rcases hu u hj with h | h | ⟨h, hne⟩
        · exact Or.inl h
        · exact Or.inr (Or.inl (Or.inl h))
        · exact Or.inr (Or.inr ⟨Or.inl h, hne⟩)
      · intro d hj
        rcases hd d hj with h | ⟨h, hne⟩
        · exact Or.inl (Or.inl h)
        · exact Or.inr ⟨Or.inl h, hne⟩
    · obtain ⟨hu, hd⟩ := ih h
      constructor
      · intro u hj
        rcases hu u hj with h | h | ⟨h, hne⟩
        · exact Or.inl h
        · exact Or.inr (Or.inl (Or.inr h))
        · exact Or.inr (Or.inr ⟨Or.inr h, hne⟩)
      · intro d hj
        rcases hd d hj with h | ⟨h, hne⟩
        · exact Or.inl (Or.inr h)
        · exact Or.inr ⟨Or.inr h, hne⟩

end Spill

namespace Code

/-! ## A spill -/

variable {c c' : Code} {t u : Temp} {st st' : Session}

/-- How a temporary is spilled to an offset. -/
abbrev spillAt (c : Code) (t : Temp) (offset : Word) : Spill := ⟨t, c.frame.fp, offset⟩

/-- The code with a temporary spilled, with so many temporaries handed out. -/
abbrev spilled (c : Code) (t : Temp) (offset spillSize : Word) (n : Nat) : Code :=
  { c with
    instrs := (c.spillAt t offset).codes c.instrs n
    spillSize
    slots := c.slots.insert t offset }

theorem spill_eq (c : Code) (t : Temp) (st : Session) :
    c.spill t st =
      match c.nextSlot with
      | .error cause => .error (.overflow cause) st
      | .ok (offset, spillSize) =>
        let new := (c.spillAt t offset).news c.instrs st.names.temps
        .ok (c.spilled t offset spillSize st.names.temps, offset, new)
          (Spill.more st new.length) := by
  unfold Code.spill
  cases hslot : c.nextSlot with
  | error cause => rfl
  | ok slot =>
    obtain ⟨offset, spillSize⟩ := slot
    have hinstrs := Spill.instrs_eq (c.spillAt t offset) c.instrs st
    simp only [Build.exactly, bind, EStateM.bind, pure, EStateM.pure, hinstrs]

/-- What allocation relies on: temporaries were handed out, and what has a slot is neither mentioned
nor the frame pointer, which is never written. -/
structure Tidy (c : Code) (n : Names) : Prop where
  handed : ∀ ⦃t⦄, t ∈ c.temps → n.HasTemp t
  slots : ∀ ⦃t⦄, t ∈ c.slots → n.HasTemp t ∧ ¬ c.Mentions t ∧ t ≠ c.frame.fp
  fp : ∀ i ∈ c.instrs, c.frame.fp ∉ i.defs

theorem Tidy.spilled (h : c.Tidy st.names) (hfp : t ≠ c.frame.fp) (ht : st.names.HasTemp t)
    (offset spillSize : Word) :
    (c.spilled t offset spillSize st.names.temps).Tidy
      (Spill.more st ((c.spillAt t offset).news c.instrs st.names.temps).length).names := by
  -- what is mentioned after the spill
  have hmention : ∀ {u}, (c.spilled t offset spillSize st.names.temps).Mentions u →
      u = c.frame.fp ∨ u ∈ (c.spillAt t offset).news c.instrs st.names.temps ∨
        c.Mentions u ∧ u ≠ t := by
    rintro u ⟨j, hj, hu | hd⟩
    · rcases (Spill.mem_codes c.instrs hj).1 u hu with h | h | ⟨⟨i, hi, h⟩, hne⟩
      · exact Or.inl h
      · exact Or.inr (Or.inl h)
      · exact Or.inr (Or.inr ⟨⟨i, hi, Or.inl h⟩, hne⟩)
    · rcases (Spill.mem_codes c.instrs hj).2 u hd with h | ⟨⟨i, hi, h⟩, hne⟩
      · exact Or.inr (Or.inl h)
      · exact Or.inr (Or.inr ⟨⟨i, hi, Or.inr h⟩, hne⟩)
  have hnew : ∀ {u}, u ∈ (c.spillAt t offset).news c.instrs st.names.temps →
      ¬ st.names.HasTemp u := fun hu hold =>
    absurd hold (Nat.not_lt_of_le (Spill.mem_news c.instrs hu).1)
  have hmore : ∀ {u}, st.names.HasTemp u →
      (Spill.more st ((c.spillAt t offset).news c.instrs st.names.temps).length).names.HasTemp u :=
    fun hu => Nat.lt_of_lt_of_le hu (Nat.le_add_right _ _)
  refine ⟨fun u hu => ?_, fun u hu => ?_, fun j hj hd => ?_⟩
  · rcases mem_temps.mp hu with hu | hu | hu
    · rcases hmention hu with rfl | hu | ⟨hu, -⟩
      · exact hmore (h.handed (mem_temps.mpr (Or.inr (Or.inl rfl))))
      · exact (Spill.mem_news c.instrs hu).2
      · exact hmore (h.handed (mem_temps.mpr (Or.inl hu)))
    · exact hmore (h.handed (mem_temps.mpr (Or.inr (Or.inl hu))))
    · exact hmore (h.handed (mem_temps.mpr (Or.inr (Or.inr hu))))
  · rcases Table.mem_insert.mp hu with rfl | hu
    · refine ⟨hmore ht, fun hm => ?_, hfp⟩
      rcases hmention hm with h' | h' | ⟨-, h'⟩
      · exact hfp h'
      · exact hnew h' ht
      · exact h' rfl
    · obtain ⟨hold, hno, hne⟩ := h.slots hu
      refine ⟨hmore hold, fun hm => ?_, hne⟩
      rcases hmention hm with h' | h' | ⟨h', -⟩
      · exact hne h'
      · exact hnew h' hold
      · exact hno h'
  · rcases (Spill.mem_codes c.instrs hj).2 _ hd with h' | ⟨⟨i, hi, h'⟩, -⟩
    · exact hnew h' (h.handed (mem_temps.mpr (Or.inr (Or.inl rfl))))
    · exact h.fp i hi h'

end Code

end MmixBackend
