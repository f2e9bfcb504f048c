import MmixBackend.Proofs.Insertion
import MmixBackend.Proofs.Selection
import MmixBackend.Proofs.Settling

/-!
# Instructions that work in place

An instruction that adds a wyde to a register names the register once, although it reads it and
writes it.  Selection gives it one temporary for both.  A spill of that temporary gives it two: one
that was loaded before it and one that is stored after it, and nothing keeps these in one register.
So the instruction is kept whole unless its temporary is spilled, and otherwise may fall apart.
Which instruction it was is followed by position through the spills: each of them puts instructions
in, and leaves the others in order with the spilled temporary replaced.

The temporaries that a repair brings in for the offsets of slots are set by such instructions too;
but they are never spilled themselves, as long as all temporaries come from the names in use.
-/

namespace MmixBackend

open Build

/-- Adds a wyde to what is in one temporary and leaves the sum in another. -/
abbrev Instr.increase (place : Place) (m : Nat) (u d : Temp) : Instr :=
  .oper (.increase place m) [u] [d] []

/-! ## What a spill leaves behind -/

/-- What a spill puts in, with so many temporaries handed out: a step in putting an offset together
in a new temporary, a load or a store. -/
def Instr.Inserted (n : Nat) (j : Instr) : Prop :=
  (∃ t v, n ≤ t.index ∧ j ∈ loadConstant t v) ∨
    ∃ us ds, j = .oper .loadSum us ds [] ∨ j = .oper .storeSum us ds []

theorem Instr.Inserted.mono {m n : Nat} {j : Instr} (h : j.Inserted n) (hle : m ≤ n) :
    j.Inserted m := by
  rcases h with ⟨t, v, ht, hj⟩ | h
  · exact Or.inl ⟨t, v, Nat.le_trans hle ht, hj⟩
  · exact Or.inr h

namespace Spill

variable {s : Spill} {i j : Instr} {is : List Instr} {n q : Nat}

/-- The temporary that an instruction reads instead of the spilled one. -/
def read (s : Spill) (i : Instr) (n : Nat) : Temp := (s.reads i n).2.1

/-- The temporary that an instruction writes instead of the spilled one. -/
def written (s : Spill) (i : Instr) (n : Nat) : Temp :=
  (s.writes i (n + (s.reads i n).2.2.length)).2.1

/-- What is left of an instruction. -/
def left (s : Spill) (i : Instr) (n : Nat) : Instr :=
  i.replace s.temp (s.read i n) (s.written i n)

theorem read_mem_new (h : s.temp ∈ i.uses) : s.read i n ∈ s.new i n :=
  List.mem_append_left _ ((s.reads_spec i n).2 h)

theorem written_mem_new (h : s.temp ∈ i.defs) : s.written i n ∈ s.new i n :=
  List.mem_append_right _ ((s.writes_spec i _).2 h)

theorem read_ne_written (hu : s.temp ∈ i.uses) (hd : s.temp ∈ i.defs) :
    s.read i n ≠ s.written i n :=
  (List.nodup_append.mp (s.new_nodup i n)).2.2 _ ((s.reads_spec i n).2 hu) _
    ((s.writes_spec i _).2 hd)

theorem inserted_of_mem_reads (h : j ∈ (s.reads i n).1) : j.Inserted n := by
  unfold reads at h
  split at h
  · rcases List.mem_append.mp h with h | h
    · exact Or.inl ⟨_, _, Nat.le_refl n, h⟩
    · exact Or.inr ⟨_, _, Or.inl (List.mem_singleton.mp h)⟩
  · cases h

theorem inserted_of_mem_writes (h : j ∈ (s.writes i n).1) : j.Inserted n := by
  unfold writes at h
  split at h
  · rcases List.mem_append.mp h with h | h
    · exact Or.inl ⟨_, _, Nat.le_succ n, h⟩
    · exact Or.inr ⟨_, _, Or.inr (List.mem_singleton.mp h)⟩
  · cases h

/-- Of the code for an instruction, what is left of it stands behind the load, and the rest was put
in. -/
theorem getElem?_code (h : (s.code i n)[q]? = some j) :
    if q = (s.reads i n).1.length then j = s.left i n else j.Inserted n := by
  have hcode : s.code i n = (s.reads i n).1 ++ s.left i n ::
      (s.writes i (n + (s.reads i n).2.2.length)).1 := rfl
  rw [hcode] at h
  split
  · next hq =>
    subst hq
    rw [List.getElem?_append_right (Nat.le_refl _), Nat.sub_self] at h
    exact (Option.some.inj h).symm
  · next hq =>
    rcases Nat.lt_or_ge q (s.reads i n).1.length with hlt | hge
    · rw [List.getElem?_append_left hlt] at h
      exact inserted_of_mem_reads (List.mem_of_getElem? h)
    · obtain ⟨k, hk⟩ := Nat.exists_eq_add_of_lt (Nat.lt_of_le_of_ne hge (Ne.symm hq))
      rw [List.getElem?_append_right hge,
        show q - (s.reads i n).1.length = k + 1 by omega, List.getElem?_cons_succ] at h
      exact (inserted_of_mem_writes (List.mem_of_getElem? h)).mono (Nat.le_add_right _ _)

/-- Where an instruction of the new code has an origin it is what is left of that one; where it has
none it was put in. -/
theorem getElem?_codes :
    ∀ {n q : Nat}, (s.codes is n)[q]? = some j →
      s.origin? is n q = none ∧ j.Inserted n ∨
        ∃ p i N, s.origin? is n q = some p ∧ is[p]? = some i ∧ j = s.left i N ∧ n ≤ N ∧
          N + (s.new i N).length ≤ n + (s.news is n).length := by
  induction is with
  | nil =>
    intro n q h
    cases h
  | cons i is ih =>
    intro n q h
    rw [codes] at h
    rw [origin?, news, List.length_append]
    rcases Nat.lt_or_ge q (s.code i n).length with hlt | hge
    · rw [List.getElem?_append_left hlt] at h
      have hj := getElem?_code h
      rw [if_pos hlt]
      split
      · next hq =>
        rw [if_pos hq] at hj
        exact Or.inr ⟨0, i, n, rfl, rfl, hj, Nat.le_refl n, by omega⟩
      · next hq =>
        rw [if_neg hq] at hj
        exact Or.inl ⟨rfl, hj⟩
    · rw [List.getElem?_append_right hge] at h
      rw [if_neg (Nat.not_lt_of_le hge)]
      rcases ih h with ⟨hnone, hj⟩ | ⟨p, i', N, horigin, hi, hj, hle, hlen⟩
      · exact Or.inl ⟨by rw [hnone]; rfl, hj.mono (Nat.le_add_right _ _)⟩
      · exact Or.inr ⟨p + 1, i', N, by rw [horigin]; rfl, hi, hj, by omega, by omega⟩

end Spill

/-! ## Where instructions come from -/

/-- A temporary that was handed out meanwhile. -/
def Names.Gave (n n' : Names) (t : Temp) : Prop := ¬ n.HasTemp t ∧ n'.HasTemp t

theorem Names.Gave.mono {n n' n'' : Names} {t : Temp} (h : n.Gave n' t)
    (hle : n'.temps ≤ n''.temps) : n.Gave n'' t :=
  ⟨h.1, Nat.lt_of_lt_of_le h.2 hle⟩

namespace Code

/-- From code with some names handed out to code with more of them, by spills. -/
inductive Spills (c : Code) (n : Names) : Code → Names → Prop
  | start : Spills c n c n
  | spill {c' c'' : Code} {st st' : Session} {t : Temp} {offset : Word} {new : List Temp}
      (h : Spills c n c' st.names) (hs : c'.spill t st = .ok (c'', offset, new) st') :
      Spills c n c'' st'.names

/-- What the instruction at a position was before spills: the one at a position of the code that
they started from, or, without such a position, one that a spill has put in. -/
inductive Stems (c : Code) (n : Names) : Code → Names → Nat → Option Nat → Instr → Prop
  | start {p : Nat} {i : Instr} (hi : c.instrs[p]? = some i) : Stems c n c n p (some p) i
  | inserted {c' c'' : Code} {st st' : Session} {t : Temp} {offset : Word} {new : List Temp}
      {q : Nat} {i : Instr} (h : c.Spills n c' st.names)
      (hs : c'.spill t st = .ok (c'', offset, new) st')
      (hq : (c'.spillAt t offset).origin? c'.instrs st.names.temps q = none)
      (hi : c''.instrs[q]? = some i) : Stems c n c'' st'.names q none i
  | left {c' c'' : Code} {st st' : Session} {t : Temp} {offset : Word} {new : List Temp}
      {p q : Nat} {o : Option Nat} {i : Instr} (h : Stems c n c' st.names p o i)
      (hs : c'.spill t st = .ok (c'', offset, new) st')
      (hq : (c'.spillAt t offset).origin? c'.instrs st.names.temps q = some p) :
      Stems c n c'' st'.names q o i

variable {c c' : Code} {n n' : Names} {k limit : Nat} {st st' : Session} {a : Allocation}

/-- An increase stems from one that works on a single temporary.  It still does so, or that one is
spilled and it has two others instead, which were handed out meanwhile. -/
structure Increases (c : Code) (n : Names) (c' : Code) (n' : Names) (q : Nat) (place : Place)
    (m : Nat) (u d t : Temp) (o : Option Nat) : Prop where
  stems : c.Stems n c' n' q o (.increase place m t t)
  inserted : o = none → ¬ n.HasTemp t
  same : u = t ∧ d = t ∨ t ∈ c'.slots ∧ u ≠ d ∧ n.Gave n' u ∧ n.Gave n' d

/-- What adds a wyde does so in one temporary, or is left from what did before a spill. -/
def InPlace (c : Code) (n : Names) (c' : Code) (n' : Names) : Prop :=
  ∀ ⦃q place m us ds js⦄, c'.instrs[q]? = some (.oper (.increase place m) us ds js) →
    ∃ u d t o, us = [u] ∧ ds = [d] ∧ c.Increases n c' n' q place m u d t o

/-- The names after a spill. -/
abbrev namesAfter (c : Code) (t : Temp) (offset : Word) (st : Session) : Names :=
  (Spill.more st ((c.spillAt t offset).news c.instrs st.names.temps).length).names

theorem spill_ok {t : Temp} {offset spillSize : Word} (h : c.nextSlot = .ok (offset, spillSize)) :
    c.spill t st = .ok (c.spilled t offset spillSize st.names.temps, offset,
        (c.spillAt t offset).news c.instrs st.names.temps)
      (Spill.more st ((c.spillAt t offset).news c.instrs st.names.temps).length) := by
  rw [spill_eq, h]

/-- A spill gives an increase of the spilled temporary two new ones, and leaves others alone. -/
theorem Increases.spilled {v t u d : Temp} {offset spillSize : Word} {p q m N : Nat} {place : Place}
    {o : Option Nat} {js : List Label} (h : c.Increases n c' st.names p place m u d t o)
    (hslot : c'.nextSlot = .ok (offset, spillSize)) (hle : n.temps ≤ st.names.temps)
    (hq : (c'.spillAt v offset).origin? c'.instrs st.names.temps q = some p)
    (hN : st.names.temps ≤ N) (hlen : N + ((c'.spillAt v offset).new
      (.oper (.increase place m) [u] [d] js) N).length ≤ st.names.temps +
        ((c'.spillAt v offset).news c'.instrs st.names.temps).length) :
    ∃ u' d', (c'.spillAt v offset).left (.oper (.increase place m) [u] [d] js) N =
        .oper (.increase place m) [u'] [d'] js ∧
      c.Increases n (c'.spilled v offset spillSize st.names.temps)
        (c'.namesAfter v offset st) q place m u' d' t o := by
  -- the two temporaries that it may get instead
  let σ := c'.spillAt v offset
  let i := Instr.oper (.increase place m) [u] [d] js
  have hnew : ∀ {x : Temp}, x ∈ σ.new i N →
      ¬ st.names.HasTemp x ∧ n.Gave (c'.namesAfter v offset st) x := by
    intro x hx
    obtain ⟨hlow, hhigh⟩ := Spill.mem_new hx
    have hout : st.names.temps ≤ x.index := Nat.le_trans hN hlow
    exact ⟨Nat.not_lt_of_le hout, Nat.not_lt_of_le (Nat.le_trans hle hout),
      Nat.lt_of_lt_of_le hhigh hlen⟩
  have hread : u = v → σ.read i N ∈ σ.new i N := fun hu =>
    Spill.read_mem_new (List.mem_singleton.mpr hu.symm)
  have hwritten : d = v → σ.written i N ∈ σ.new i N := fun hd =>
    Spill.written_mem_new (List.mem_singleton.mpr hd.symm)
  have hold : ∀ {x : Temp}, n.Gave st.names x → n.Gave (c'.namesAfter v offset st) x :=
    fun hx => hx.mono (Nat.le_add_right _ _)
  refine ⟨if u = v then σ.read i N else u, if d = v then σ.written i N else d, rfl,
    .left h.stems (spill_ok hslot) hq, h.inserted, ?_⟩
  rcases h.same with ⟨rfl, rfl⟩ | ⟨ht, hne, hu, hd⟩
  · by_cases hv : d = v
    · rw [if_pos hv, if_pos hv]
      refine Or.inr ⟨Table.mem_insert.mpr (Or.inl hv.symm), ?_, (hnew (hread hv)).2,
        (hnew (hwritten hv)).2⟩
      exact Spill.read_ne_written (List.mem_singleton.mpr hv.symm) (List.mem_singleton.mpr hv.symm)
    · rw [if_neg hv, if_neg hv]
      exact Or.inl ⟨rfl, rfl⟩
  · refine Or.inr ⟨Table.mem_insert.mpr (Or.inr ht), ?_⟩
    by_cases huv : u = v <;> by_cases hdv : d = v
    · exact absurd (huv.trans hdv.symm) hne
    · rw [if_pos huv, if_neg hdv]
      refine ⟨fun heq => (hnew (hread huv)).1 ?_, (hnew (hread huv)).2, hold hd⟩
      rw [heq]
      exact hd.2
    · rw [if_neg huv, if_pos hdv]
      refine ⟨fun heq => (hnew (hwritten hdv)).1 ?_, hold hu, (hnew (hwritten hdv)).2⟩
      rw [← heq]
      exact hu.2
    · rw [if_neg huv, if_neg hdv]
      exact ⟨hne, hold hu, hold hd⟩

/-- After a spill, what adds a wyde was put in for an offset, or is left from what did so before. -/
theorem InPlace.spilled (h : c.InPlace n c' st.names) (hs : c.Spills n c' st.names)
    (hle : n.temps ≤ st.names.temps) {v : Temp} {offset spillSize : Word}
    (hslot : c'.nextSlot = .ok (offset, spillSize)) :
    c.InPlace n (c'.spilled v offset spillSize st.names.temps)
      (c'.namesAfter v offset st) := by
  intro q place m us ds js hj
  rcases Spill.getElem?_codes hj with ⟨hnone, hin⟩ | ⟨p, i, N, hq, hi, hleft, hN, hlen⟩
  · rcases hin with ⟨t, w, ht, hmem⟩ | ⟨_, _, hj' | hj'⟩
    · obtain ⟨step, -, hstep⟩ := List.mem_map.mp hmem
      cases step <;> cases hstep
      exact ⟨t, t, t, none, rfl, rfl, .inserted hs (spill_ok hslot) hnone hj,
        fun _ => Nat.not_lt_of_le (Nat.le_trans hle ht), Or.inl ⟨rfl, rfl⟩⟩
    · cases hj'
    · cases hj'
  · cases i <;> cases hleft
    obtain ⟨u, d, t, o, rfl, rfl, hinc⟩ := h hi
    obtain ⟨u', d', hleft, hinc'⟩ := hinc.spilled hslot hle hq hN hlen
    cases hleft
    exact ⟨_, _, t, o, rfl, rfl, hinc'⟩

theorem InPlace.allocateRounds {remaining round : Nat} {repair : TempSet}
    (h : c.InPlace st.names c st.names)
    (hok : Code.allocateRounds k limit remaining round c repair st = .ok a st') :
    c.InPlace st.names a.code st'.names := by
  let P (c₁ : Code) (n₁ : Names) : Prop :=
    c.InPlace st.names c₁ n₁ ∧ c.Spills st.names c₁ n₁ ∧ st.names.temps ≤ n₁.temps
  have hall : P a.code st'.names := by
    refine (allocateRounds_induction (P := P) ?_ ⟨h, .start, Nat.le_refl _⟩ hok).1
    intro c₁ c₂ repair₁ repair₂ st₁ st₂ h₁ hspill
    refine spillAll_induction (P := P) ?_ h₁ hspill
    rintro c₃ st₃ t offset spillSize - hslot ⟨hin, hspills, hle⟩
    have hmore : c.Spills st.names _ (c₃.namesAfter t offset st₃) :=
      .spill hspills (spill_ok hslot)
    exact ⟨hin.spilled hspills hle hslot, hmore, Nat.le_trans hle (Nat.le_add_right _ _)⟩
  exact hall.1

end Code

/-! ## Chunks -/

/-- The temporaries of a chunk were handed out, the frame has two of them, and its frame pointer is
never written. -/
structure CodeChunk.Drawn (chunk : CodeChunk) (n : Names) : Prop where
  temps : ∀ t ∈ Ir.Stmt.listTemps chunk.stmts, n.HasTemp t
  fp : n.HasTemp chunk.frame.fp
  rv : n.HasTemp chunk.frame.rv
  apart : chunk.frame.fp ≠ chunk.frame.rv
  kept : chunk.frame.fp ∉ Ir.Stmt.listTargets chunk.stmts

section Chunks

variable {chunk : CodeChunk} {window k : Nat} {s₀ s s' : Session} {c : Code} {a : Allocation}

/-- What allocation asks of code holds of the code of such a chunk. -/
theorem CodeChunk.Drawn.select (h : chunk.Drawn s₀.names)
    (hc : chunk.select window s₀ = .ok c s) :
    (∀ t ∈ c.temps, s.names.HasTemp t) ∧ ∀ i ∈ c.instrs, i.Slim c.frame.fp := by
  obtain ⟨hpicks, hframe, -, -⟩ := CodeChunk.select_ok hc
  have hold : ∀ {t : Temp}, s₀.names.HasTemp t → s.names.HasTemp t := fun ht =>
    Nat.lt_of_lt_of_le ht (Names.temps_le hpicks.names)
  constructor
  · intro t ht
    rcases Code.mem_temps.mp ht with ⟨i, hi, hu | hd⟩ | rfl | rfl
    · rcases (hpicks.instrs i hi).uses t hu with hmem | hnew
      · exact hold (h.temps t hmem)
      · exact hnew.2
    · rcases (hpicks.instrs i hi).defs t hd with hmem | hnew
      · exact hold (h.temps t (Ir.Stmt.listTargets_subset hmem))
      · exact hnew.2
    · rw [hframe]
      exact hold h.fp
    · rw [hframe]
      exact hold h.rv
  · intro i hi
    have hsel := hpicks.instrs i hi
    refine ⟨?_, ?_, fun hfp => ?_⟩
    · calc (i.uses.filter (· ≠ c.frame.fp)).dedup.length
          ≤ (i.uses.filter (· ≠ c.frame.fp)).length := (List.dedup_sublist _).length_le
        _ ≤ i.uses.length := List.length_filter_le _ _
        _ ≤ 2 := hsel.few.1
    · exact Nat.le_trans (List.dedup_sublist _).length_le hsel.few.2
    · rw [hframe] at hfp
      rcases hsel.defs _ hfp with hmem | hnew
      · exact h.kept hmem
      · exact absurd h.fp (Nat.not_lt_of_le hnew.1)

/-- Allocation for the code of such a chunk spills temporaries that the code mentions. -/
theorem CodeChunk.Drawn.hasTemp_of_slot (h : chunk.Drawn s₀.names)
    (hc : chunk.select window s₀ = .ok c s) (ha : c.allocate k s = .ok a s') {t : Temp}
    (ht : t ∈ a.code.slots) : s.names.HasTemp t := by
  obtain ⟨-, hframe, hslots, hsize⟩ := CodeChunk.select_ok hc
  obtain ⟨hnames, hslim⟩ := h.select hc
  obtain ⟨hk, -, hrounds⟩ := Code.allocate_ok ha
  have hsettles : c.Settles s (.ok a s') := by
    rw [← hrounds]
    exact (Code.midway_start hslots hsize hnames hslim).allocateRounds hk (hframe ▸ h.apart)
      (Nat.zero_le _) (Nat.le_max_left _ _)
  obtain ⟨-, ts, hspilled, hmem⟩ := hsettles
  exact hnames t (hspilled.temps t ((hmem t).mp ht)).1

/-- An instruction that adds a wyde stems from one that works on a single temporary, of the selected
code or put in by a spill.  It still works on that one, which has a register; or that one is spilled
and it works on two others, which were handed out by spills.  What a spill puts in is never taken
apart like that if the temporaries of the chunk were handed out. -/
theorem CodeChunk.allocate_increase (hc : chunk.select window s₀ = .ok c s)
    (ha : c.allocate k s = .ok a s') {q : Nat} {place : Place} {m : Nat} {us ds : List Temp}
    {js : List Label} (hi : a.code.instrs[q]? = some (.oper (.increase place m) us ds js)) :
    ∃ u d t o, us = [u] ∧ ds = [d] ∧
      c.Stems s.names a.code s'.names q o (.increase place m t t) ∧
      (o = none → ¬ s.names.HasTemp t) ∧
      (u = t ∧ d = t ∧ (∃ r, a.register? u = some r ∧ a.register? d = some r) ∨
        t ∈ a.code.slots ∧ u ≠ d ∧ s.names.Gave s'.names u ∧ s.names.Gave s'.names d ∧
          (o = none → ¬ chunk.Drawn s₀.names)) := by
  obtain ⟨hpicks, -⟩ := CodeChunk.select_ok hc
  obtain ⟨-, -, hrounds⟩ := Code.allocate_ok ha
  have hstart : c.InPlace s.names c s.names := by
    intro q place m us ds js hi
    obtain ⟨t, rfl, rfl, rfl⟩ := (hpicks.instrs _ (List.mem_of_getElem? hi)).pair rfl
    exact ⟨t, t, t, some q, rfl, rfl, .start hi, nofun, Or.inl ⟨rfl, rfl⟩⟩
  obtain ⟨u, d, t, o, rfl, rfl, hinc⟩ := hstart.allocateRounds hrounds hi
  refine ⟨u, d, t, o, rfl, rfl, hinc.stems, hinc.inserted, ?_⟩
  rcases hinc.same with ⟨rfl, hd⟩ | ⟨ht, hne, hu, hd⟩
  · obtain ⟨repair, hs⟩ := Code.allocateRounds_settled hrounds
    have hmention : a.code.Mentions u :=
      ⟨_, List.mem_of_getElem? hi, Or.inl (List.mem_singleton_self u)⟩
    obtain ⟨r, hr⟩ := Option.isSome_iff_exists.mp (hs.mentions hmention)
    exact Or.inl ⟨rfl, hd, r, hr, hd.symm ▸ hr⟩
  · exact Or.inr ⟨ht, hne, hu, hd, fun ho hdrawn =>
      hinc.inserted ho (hdrawn.hasTemp_of_slot hc ha ht)⟩

end Chunks

/-- Two constants in a sum that does not fit into three registers: the first is spilled. -/
def sumOf (x y : Word) : CodeChunk where
  name := "_sum"
  frame := ⟨⟨0⟩, 0, 0, 0, 0, ⟨0⟩, ⟨1⟩⟩
  entry := ⟨1⟩
  exit := ⟨2⟩
  stmts := [
    .move (.temp ⟨1⟩) (.binary .add (.const x) (.binary .add (.temp ⟨2⟩)
      (.binary .add (.temp ⟨3⟩) (.binary .add (.const y) (.const 1))))),
    .jump ⟨2⟩]

theorem drawn_sumOf (x y : Word) : (sumOf x y).Drawn { temps := 4 } :=
  ⟨by simp [sumOf, Ir.Stmt.listTemps, Ir.Stmt.temps, Ir.Expr.temps, Names.HasTemp],
    by simp [sumOf, Names.HasTemp], by simp [sumOf, Names.HasTemp], by simp [sumOf],
    by simp [sumOf, Ir.Stmt.listTargets, Ir.Stmt.targets]⟩

/-- Of two constants with the same wydes one is spilled.  The other one is put together in one
register, and what is left of the spilled one stems from its own instruction. -/
theorem CodeChunk.allocate_increase_kept :
    (sumOf 65536 65536).Drawn { temps := 4 } ∧
      ∃ c s a s', (sumOf 65536 65536).select 3 { names := { temps := 4 } } = .ok c s ∧
        c.allocate 3 s = .ok a s' ∧
        a.code.instrs[12]? = some (.increase .mediumLow 1 ⟨5⟩ ⟨5⟩) ∧
        (∃ r, a.register? ⟨5⟩ = some r) ∧
        a.code.instrs[7]? = some (.increase .mediumLow 1 ⟨14⟩ ⟨15⟩) ∧
        ∃ p, c.Stems s.names a.code s'.names 7 (some p) (.increase .mediumLow 1 ⟨4⟩ ⟨4⟩) := by
  have hrun : ∃ r s', ((sumOf 65536 65536).select 3 >>= fun c => c.allocate 3 >>= fun a =>
        pure (c, a)) { names := { temps := 4 } } = .ok r s' ∧
      r.2.code.instrs[12]? = some (.increase .mediumLow 1 ⟨5⟩ ⟨5⟩) ∧
      r.2.code.instrs[7]? = some (.increase .mediumLow 1 ⟨14⟩ ⟨15⟩) ∧
      r.2.code.slots.keys = [⟨4⟩] := by
    decide +kernel
  obtain ⟨⟨c, a⟩, s', h, hkept, hsplit, hslots⟩ := hrun
  simp only [bind_ok, pure_ok, Prod.mk.injEq] at h
  obtain ⟨_, s, hc, _, _, ha, ⟨rfl, rfl⟩, rfl⟩ := h
  have hdrawn := drawn_sumOf 65536 65536
  refine ⟨hdrawn, c, s, a, s', hc, ha, hkept, ?_, hsplit, ?_⟩
  · obtain ⟨u, d, t, o, hu, hd, -, -, ⟨-, -, r, hr, -⟩ | ⟨-, hne, -⟩⟩ :=
      CodeChunk.allocate_increase hc ha hkept
    · cases hu
      exact ⟨r, hr⟩
    · cases hu
      cases hd
      exact absurd rfl hne
  · obtain ⟨u, d, t, o, hu, hd, hstems, -, ⟨rfl, heq, -⟩ | ⟨ht, -, -, -, ho⟩⟩ :=
      CodeChunk.allocate_increase hc ha hsplit
    · cases hu
      cases hd
      cases heq
    · have htemp : t ∈ a.code.slots.keys := Std.ExtTreeMap.mem_keys.mpr ht
      rw [hslots] at htemp
      obtain rfl := List.mem_singleton.mp htemp
      cases o with
      | none => exact absurd hdrawn (ho rfl)
      | some p => exact ⟨p, hstems⟩

/-- A wide constant that is spilled falls apart: its higher wyde is added to a register that it was
not loaded into. -/
theorem CodeChunk.spilled_increase_split :
    (sumOf 65536 1).Drawn { temps := 4 } ∧
      ∃ c s a s', (sumOf 65536 1).select 3 { names := { temps := 4 } } = .ok c s ∧
        c.allocate 3 s = .ok a s' ∧
        Instr.increase .mediumLow 1 ⟨14⟩ ⟨15⟩ ∈ a.code.instrs ∧
        a.register? ⟨14⟩ = some 0 ∧ a.register? ⟨15⟩ = some 1 := by
  have hrun : ∃ r s', ((sumOf 65536 1).select 3 >>= fun c => c.allocate 3 >>= fun a => pure (c, a))
        { names := { temps := 4 } } = .ok r s' ∧
      Instr.increase .mediumLow 1 ⟨14⟩ ⟨15⟩ ∈ r.2.code.instrs ∧
      r.2.register? ⟨14⟩ = some 0 ∧ r.2.register? ⟨15⟩ = some 1 := by
    decide +kernel
  obtain ⟨⟨c, a⟩, s', h, hi, hu, hd⟩ := hrun
  simp only [bind_ok, pure_ok, Prod.mk.injEq] at h
  obtain ⟨_, s, hc, _, _, ha, ⟨rfl, rfl⟩, rfl⟩ := h
  exact ⟨drawn_sumOf 65536 1, c, s, a, s', hc, ha, hi, hu, hd⟩

end MmixBackend
