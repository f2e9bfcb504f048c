import MmixBackend.Proofs.Paths
import MmixBackend.Proofs.Processor
import MmixBackend.Proofs.Simulation

/-!
# The code of a spill, executed

Executions of abstract code are followed instruction by instruction, each with its position and the
values it reads.  In code with a temporary spilled, each instruction stands with its load before it
and its store after it, and labels lead to where their instructions went.  What is inserted goes one
way only: it puts an offset together and loads or stores the word at the slot.
-/

namespace MmixBackend

/-! ## Words of the machine -/

/-- Access to the words of a machine's memory. -/
structure Words (M : Type) where
  load : M → Word → Word
  store : M → Word → Word → M
  load_store : ∀ m a v b, load (store m a v) b = if a = b then v else load m b
  store_store : ∀ m a v w, store (store m a v) a w = store m a w

namespace Words

variable {M : Type} {mem : Words M} {a v : Word} {m m₁ m₂ : M}

/-- Two states are the same apart from the word at an address. -/
def SameBut (mem : Words M) (a : Word) (m m' : M) : Prop := mem.store m a 0 = mem.store m' a 0

theorem SameBut.trans (h : mem.SameBut a m m₁) (h' : mem.SameBut a m₁ m₂) : mem.SameBut a m m₂ :=
  Eq.trans h h'

theorem sameBut_store : mem.SameBut a m (mem.store m a v) := (mem.store_store m a v 0).symm

end Words

namespace Semantics

variable {M : Type}

/-- Two effects are the same apart from the word at an address, which the second leaves. -/
structure Alike (mem : Words M) (a : Word) (m' : M) (e e' : Effect Word M) : Prop where
  written : e'.written = e.written
  target : e'.target = e.target
  state : mem.SameBut a e.state e'.state
  kept : mem.load e'.state a = mem.load m' a

/-- With these values and in this state the instruction neither reads nor writes the word at an
address: it does the same in every state that is the same otherwise, and leaves the word. -/
def Spares (sem : Semantics Word M) (mem : Words M) (a : Word) (i : Instr) (vs : List Word) (m : M) :
    Prop :=
  ∀ m', mem.SameBut a m m' →
    (∀ e, sem.does i vs m e → ∃ e', sem.does i vs m' e' ∧ Alike mem a m' e e') ∧
      ∀ e', sem.does i vs m' e' → ∃ e, sem.does i vs m e ∧ Alike mem a m' e e'

/-- What an instruction does depends on the values it reads and not on the temporaries they are in,
and the instructions of a spill act on words: they put a constant together, and load and store at
the sum of two addresses. -/
structure Spills (sem : Semantics Word M) (mem : Words M) : Prop where
  replace : ∀ {i t read written vs m e},
    sem.does (i.replace t read written) vs m e ↔ sem.does i vs m e
  constant : ∀ {step : ConstantStep} {t σ m e},
    sem.does (step.instr t) ((step.instr t).uses.map σ) m e ↔ e = ⟨[step.value (σ t)], m, none⟩
  load : ∀ {t u w a b m e},
    sem.does (.oper .loadSum [t, u] [w] []) [a, b] m e ↔ e = ⟨[mem.load m (a + b)], m, none⟩
  store : ∀ {t u w v a b m e},
    sem.does (.oper .storeSum [t, u, w] [] []) [v, a, b] m e ↔ e = ⟨[], mem.store m (a + b) v, none⟩

/-- Instructions one after another, each with its position and the values it reads. -/
inductive Executes {V : Type} (sem : Semantics V M) (c : Code) :
    Moment Temp V M → List (Nat × List V) → Moment Temp V M → Prop
  | stop {x : Moment Temp V M} : Executes sem c x [] x
  | step {i : Nat} {instr : Instr} {σ : Temp → V} {m : M} {e : Effect V M} {p : Successor}
      {events : List (Nat × List V)} {y : Moment Temp V M} (hinstr : c.instrs[i]? = some instr)
      (hdoes : sem.does instr (instr.uses.map σ) m e) (hgo : c.goTo? i e.target = some p)
      (hrest : Executes sem c ⟨p, writeAll σ instr.defs e.written, e.state⟩ events y) :
      Executes sem c ⟨.instr i, σ, m⟩ ((i, instr.uses.map σ) :: events) y

variable {V : Type} {sem : Semantics V M} {c : Code} {x y z : Moment Temp V M}
  {events events' : List (Nat × List V)}

theorem Executes.append (h : sem.Executes c x events y) (h' : sem.Executes c y events' z) :
    sem.Executes c x (events ++ events') z := by
  induction h with
  | stop => exact h'
  | step hinstr hdoes hgo _ ih => exact .step hinstr hdoes hgo (ih h')

/-! ## Inserted instructions -/

/-- The events of instructions that stand for others, each with the position of the other one. -/
def originals (origin? : Nat → Option Nat) (events : List (Nat × List V)) : List (Nat × List V) :=
  events.filterMap fun event => (origin? event.1).map (·, event.2)

theorem originals_append (origin? : Nat → Option Nat) (events events' : List (Nat × List V)) :
    originals origin? (events ++ events') = originals origin? events ++ originals origin? events' :=
  List.filterMap_append

/-- From one moment to another goes one way only, and past no instruction that stands for another:
an execution that goes on and ends at a boundary comes through. -/
structure Passes (sem : Semantics V M) (c : Code) (origin? : Nat → Option Nat)
    (boundary : Successor → Prop) (x y : Moment Temp V M) : Prop where
  runs : ∃ events, originals origin? events = [] ∧ sem.Executes c x events y
  only : ∀ {events z}, sem.Executes c x events z → boundary z.place → events ≠ [] →
    ∃ inserted rest, events = inserted ++ rest ∧ originals origin? inserted = [] ∧
      sem.Executes c y rest z

variable {origin? : Nat → Option Nat} {boundary : Successor → Prop}

theorem passes_refl (x : Moment Temp V M) : sem.Passes c origin? boundary x x :=
  ⟨⟨[], rfl, .stop⟩, fun h _ _ => ⟨[], _, rfl, rfl, h⟩⟩

theorem Passes.trans (h : sem.Passes c origin? boundary x y) (h' : sem.Passes c origin? boundary y z)
    (hy : ¬ boundary y.place) : sem.Passes c origin? boundary x z := by
  constructor
  · obtain ⟨events, hnone, hruns⟩ := h.runs
    obtain ⟨events', hnone', hruns'⟩ := h'.runs
    exact ⟨_, by rw [originals_append, hnone, hnone', List.append_nil], hruns.append hruns'⟩
  · intro events u hu hb hne
    obtain ⟨inserted, rest, rfl, hnone, hrest⟩ := h.only hu hb hne
    have hgoes : rest ≠ [] := by
      rintro rfl
      cases hrest
      exact hy hb
    obtain ⟨inserted', rest', rfl, hnone', hrest'⟩ := h'.only hrest hb hgoes
    exact ⟨inserted ++ inserted', rest', (List.append_assoc ..).symm,
      by rw [originals_append, hnone, hnone', List.append_nil], hrest'⟩

theorem passes_step {p : Nat} {instr : Instr} {σ : Temp → V} {m m' : M} {vs : List V}
    (hinstr : c.instrs[p]? = some instr) (hlt : p + 1 < c.instrs.length)
    (horigin : origin? p = none)
    (hdoes : ∀ e, sem.does instr (instr.uses.map σ) m e ↔ e = ⟨vs, m', none⟩) :
    sem.Passes c origin? boundary ⟨.instr p, σ, m⟩
      ⟨.instr (p + 1), writeAll σ instr.defs vs, m'⟩ := by
  have hgo : c.goTo? p none = some (.instr (p + 1)) := Code.goTo?_next hlt
  have hnone : ∀ us : List V, originals origin? [(p, us)] = [] := by
    intro us
    simp [originals, horigin]
  constructor
  · exact ⟨_, hnone _, .step hinstr ((hdoes _).mpr rfl) hgo .stop⟩
  · intro events z hz _ hne
    cases hz with
    | stop => exact absurd rfl hne
    | step hinstr' hdoes' hgo' hrest =>
      obtain rfl := Option.some.inj (hinstr.symm.trans hinstr')
      obtain rfl := (hdoes _).mp hdoes'
      obtain rfl := Option.some.inj (hgo.symm.trans hgo')
      exact ⟨[_], _, rfl, hnone _, hrest⟩

end Semantics

/-! ## Positions in the new code -/

namespace Spill

variable {s : Spill} {xs ys : List Instr} {i : Instr} {n k : Nat}

/-- Where the instructions for the one at a position start. -/
def start (s : Spill) (is : List Instr) (n position : Nat) : Nat :=
  (s.codes (is.take position) n).length

/-- The place in the new code for a place. -/
def placed (s : Spill) (is : List Instr) (n : Nat) : Successor → Successor
  | .instr position => .instr (s.start is n position)
  | .exit => .exit

/-- A place in the new code at which an instruction's code starts, or the exit. -/
def Boundary (s : Spill) (is : List Instr) (n : Nat) (p : Successor) : Prop :=
  ∃ q, p = s.placed is n q

/-- The position of the instruction that one of the new code stands for; an inserted one stands for
none. -/
def origin? (s : Spill) : List Instr → Nat → Nat → Option Nat
  | [], _, _ => none
  | i :: is, n, position =>
    if position < (s.code i n).length then
      if position = (s.reads i n).1.length then some 0 else none
    else (s.origin? is (n + (s.new i n).length) (position - (s.code i n).length)).map (· + 1)

theorem start_append :
    s.start (xs ++ i :: ys) n xs.length = (s.codes xs n).length := by
  simp [start]

theorem start_append_succ :
    s.start (xs ++ i :: ys) n (xs.length + 1) =
      (s.codes xs n).length + (s.code i (n + (s.news xs n).length)).length := by
  have htake : (xs ++ i :: ys).take (xs.length + 1) = xs ++ [i] := by
    rw [List.take_length_add_append]
    rfl
  rw [start, htake, codes_append]
  simp [codes]

theorem start_mono (s : Spill) (is : List Instr) (n : Nat) {j k : Nat} (h : j ≤ k) :
    s.start is n j ≤ s.start is n k := by
  have hsplit : is.take k = is.take j ++ (is.take k).drop j := by
    conv_lhs => rw [← List.take_append_drop j (is.take k), List.take_take, Nat.min_eq_left h]
  rw [start, start, hsplit, codes_append, List.length_append]
  exact Nat.le_add_right _ _

variable {is : List Instr} {l : Label}

/-- Inside the code of one instruction is no boundary. -/
theorem not_boundary {N : Nat} (his : is = xs ++ i :: ys) (hN : N = n + (s.news xs n).length)
    (hpos : 0 < k) (hlt : k < (s.code i N).length) :
    ¬ s.Boundary is n (.instr ((s.codes xs n).length + k)) := by
  subst his hN
  rintro ⟨q, hq⟩
  cases q with
  | exit => cases hq
  | instr j =>
    have hj : (s.codes xs n).length + k = s.start (xs ++ i :: ys) n j := by
      injection hq
    rcases Nat.lt_or_ge xs.length j with h | h
    · have hle := s.start_mono (xs ++ i :: ys) n h
      rw [start_append_succ] at hle
      omega
    · have hle := s.start_mono (xs ++ i :: ys) n h
      rw [start_append] at hle
      omega

theorem origin?_append (xs : List Instr) :
    ∀ {n k : Nat}, k < (s.code i (n + (s.news xs n).length)).length →
      s.origin? (xs ++ i :: ys) n ((s.codes xs n).length + k) =
        if k = (s.reads i (n + (s.news xs n).length)).1.length then some xs.length else none := by
  induction xs with
  | nil =>
    intro n k hk
    simp only [news, codes, List.length_nil, Nat.add_zero, Nat.zero_add] at hk ⊢
    rw [List.nil_append, origin?, if_pos hk]
    rfl
  | cons x xs ih =>
    intro n k hk
    have hsum : n + (s.news (x :: xs) n).length =
        n + (s.new x n).length + (s.news xs (n + (s.new x n).length)).length := by
      rw [news, List.length_append, Nat.add_assoc]
    rw [hsum] at hk ⊢
    have hpos : (s.codes (x :: xs) n).length + k - (s.code x n).length =
        (s.codes xs (n + (s.new x n).length)).length + k := by
      rw [codes, List.length_append]
      omega
    rw [List.cons_append, origin?, if_neg (by rw [codes, List.length_append]; omega), hpos, ih hk]
    split
    · rfl
    · rfl

/-- Of the code of one instruction, the instruction itself stands for it. -/
theorem origin?_eq {N : Nat} (his : is = xs ++ i :: ys) (hN : N = n + (s.news xs n).length)
    (hlt : k < (s.code i N).length) :
    s.origin? is n ((s.codes xs n).length + k) =
      if k = (s.reads i N).1.length then some xs.length else none := by
  subst his hN
  exact origin?_append xs hlt

/-! ## Labels -/

theorem label_notMem_loadConstant {t : Temp} {v : Word} :
    .label l ∉ loadConstant t v := by
  intro hl
  have hdefs := (mem_loadConstant hl).2.1
  cases hdefs

theorem label_notMem_code (h : ∀ l, i ≠ .label l) (l : Label) : .label l ∉ s.code i n := by
  intro hl
  rcases List.mem_append.mp hl with hl | hl
  · unfold reads at hl
    split at hl
    · rcases List.mem_append.mp hl with hl | hl
      · exact label_notMem_loadConstant hl
      · simp at hl
    · cases hl
  · rcases List.mem_cons.mp hl with hl | hl
    · cases i with
      | oper | move => cases hl
      | label l' => exact h l' rfl
    · unfold writes at hl
      split at hl
      · rcases List.mem_append.mp hl with hl | hl
        · exact label_notMem_loadConstant hl
        · simp at hl
      · cases hl

theorem label_mem_codes (is : List Instr) :
    ∀ {n : Nat}, .label l ∈ s.codes is n ↔ .label l ∈ is := by
  induction is with
  | nil => simp [codes]
  | cons i is ih =>
    intro n
    rw [codes, List.mem_append, ih, List.mem_cons]
    refine or_congr_left ?_
    cases i with
    | label l' =>
      rw [show s.code (.label l') n = [.label l'] from rfl, List.mem_singleton]
    | oper | move =>
      constructor
      · exact fun h => absurd h (label_notMem_code (by simp) l)
      · exact fun h => by cases h

/-- A label stands last where none of its kind follows. -/
theorem lastAt_iff :
    ∀ {k : Nat}, Code.LastAt is l k ↔
      ∃ xs ys, is = xs ++ .label l :: ys ∧ k = xs.length ∧ .label l ∉ ys := by
  intro k
  constructor
  · rintro ⟨hk, hlast⟩
    obtain ⟨hlt, hget⟩ := List.getElem?_eq_some_iff.mp hk
    refine ⟨is.take k, is.drop (k + 1), ?_, by simp [Nat.le_of_lt hlt], ?_⟩
    · rw [← hget, ← List.drop_eq_getElem_cons hlt, List.take_append_drop]
    · intro hmem
      obtain ⟨j, hj⟩ := List.mem_iff_getElem?.mp hmem
      rw [List.getElem?_drop] at hj
      exact hlast (k + 1 + j) (by omega) hj
  · rintro ⟨xs, ys, rfl, rfl, hnot⟩
    refine ⟨by simp, fun j hj hget => hnot ?_⟩
    rw [List.getElem?_append_right (Nat.le_of_lt hj)] at hget
    obtain ⟨d, hd⟩ := Nat.exists_eq_add_of_lt hj
    rw [show j - xs.length = d + 1 by omega, List.getElem?_cons_succ] at hget
    exact List.mem_of_getElem? hget

theorem exists_lastAt (h : .label l ∈ is) :
    ∃ k, Code.LastAt is l k := by
  induction is with
  | nil => cases h
  | cons i is ih =>
    by_cases htail : .label l ∈ is
    · obtain ⟨k, hk⟩ := ih htail
      exact ⟨k + 1, Code.lastAt_cons_succ.mpr hk⟩
    · have hi : i = .label l := ((List.mem_cons.mp h).resolve_right htail).symm
      exact ⟨0, Code.lastAt_cons_zero.mpr ⟨hi, htail⟩⟩

/-- A label stands in the new code where its code starts. -/
theorem lastAt_codes {k : Nat} (h : Code.LastAt is l k) :
    Code.LastAt (s.codes is n) l (s.start is n k) := by
  obtain ⟨xs, ys, rfl, rfl, hnot⟩ := lastAt_iff.mp h
  rw [start_append]
  refine lastAt_iff.mpr ⟨s.codes xs n, s.codes ys (n + (s.news xs n).length), ?_, rfl, ?_⟩
  · rw [codes_append]
    rfl
  · rw [label_mem_codes]
    exact hnot

end Spill

/-- The second code is the first with a temporary spilled to a slot. -/
structure Code.SpillsTo (c : Code) (t : Temp) (slot : Word) (n : Nat) (c' : Code) : Prop where
  instrs : c'.instrs = (c.spillAt t slot).codes c.instrs n
  exit : c'.exit = c.exit

/-- A label leads in the new code to the place for where it led. -/
theorem Code.SpillsTo.target? {c c' : Code} {t : Temp} {slot : Word} {n : Nat}
    (h : c.SpillsTo t slot n c') (l : Label) :
    c'.target? (labelsFrom 0 ∅ c'.instrs) l =
      (c.target? (labelsFrom 0 ∅ c.instrs) l).map ((c.spillAt t slot).placed c.instrs n) := by
  rw [Code.target?, Code.target?, h.exit]
  split
  · rfl
  · cases hl : (labelsFrom 0 ∅ c.instrs)[l]? with
    | some k =>
      have hk := Spill.lastAt_codes (s := c.spillAt t slot) (n := n) (getElem?_labels.mp hl)
      rw [← h.instrs] at hk
      rw [getElem?_labels.mpr hk]
      rfl
    | none =>
      cases hl' : (labelsFrom 0 ∅ c'.instrs)[l]? with
      | none => rfl
      | some j =>
        have hmem := List.mem_of_getElem? (getElem?_labels.mp hl').1
        rw [h.instrs, Spill.label_mem_codes] at hmem
        obtain ⟨k, hk⟩ := Spill.exists_lastAt hmem
        rw [getElem?_labels.mpr hk] at hl
        cases hl

/-! ## Slots -/

namespace Semantics

variable {M : Type} {sem : Semantics Word M} {mem : Words M} {c : Code} {origin? : Nat → Option Nat}
  {boundary : Successor → Prop} {σ : Temp → Word} {m : M} {fp offset value : Temp} {slot : Word}
  {A B : List Instr}

theorem passes_constant (hsem : sem.Spills mem) {t : Temp} (steps : List ConstantStep) :
    ∀ {A : List Instr} {σ : Temp → Word}, c.instrs = A ++ (steps.map (·.instr t) ++ B) → B ≠ [] →
      (∀ k < steps.length, origin? (A.length + k) = none) →
      (∀ k, 0 < k → k ≤ steps.length → ¬ boundary (.instr (A.length + k))) →
      sem.Passes c origin? boundary ⟨.instr A.length, σ, m⟩
        ⟨.instr (A.length + steps.length),
          fun u => if u = t then constantValue steps (σ t) else σ u, m⟩ := by
  induction steps with
  | nil =>
    intro A σ _ _ _ _
    have hsame : (fun u => if u = t then constantValue [] (σ t) else σ u) = σ := by
      funext u
      split
      · next h => rw [h]; rfl
      · rfl
    rw [hsame]
    exact passes_refl _
  | cons step steps ih =>
    intro A σ hcode hB horigin hinside
    have hinstr : c.instrs[A.length]? = some (step.instr t) := by simp [hcode]
    have hlt : A.length + 1 < c.instrs.length := by
      have := List.length_pos_iff.mpr hB
      simp only [hcode, List.length_append, List.length_map, List.length_cons]
      omega
    have hfirst : sem.Passes c origin? boundary ⟨.instr A.length, σ, m⟩ _ :=
      passes_step hinstr hlt (horigin 0 (by simp)) fun e => hsem.constant
    have hdefs : (step.instr t).defs = [t] := by cases step <;> rfl
    rw [hdefs] at hfirst
    have hrest := ih (A := A ++ [step.instr t]) (σ := writeAll σ [t] [step.value (σ t)])
      (by simp [hcode]) hB
      (fun k hk => by
        have := horigin (k + 1) (by simpa using hk)
        rwa [List.length_append, List.length_singleton, Nat.add_assoc, Nat.add_comm 1])
      (fun k hpos hk => by
        have := hinside (k + 1) (by omega) (by simpa using hk)
        rwa [List.length_append, List.length_singleton, Nat.add_assoc, Nat.add_comm 1])
    rw [List.length_append, List.length_singleton] at hrest
    have hvalues : (fun u => if u = t then
          constantValue steps (writeAll σ [t] [step.value (σ t)] t)
        else writeAll σ [t] [step.value (σ t)] u) =
        fun u => if u = t then constantValue (step :: steps) (σ t) else σ u := by
      funext u
      by_cases hu : u = t
      · simp [hu, writeAll, constantValue_cons]
      · simp [hu, writeAll]
    rw [hvalues, Nat.add_assoc, Nat.add_comm 1] at hrest
    exact hfirst.trans hrest (hinside 1 (by omega) (by simp))

theorem passes_slot (hsem : sem.Spills mem) {last : Instr} {vs : List Word} {m' : M}
    (hcode : c.instrs = A ++ (loadConstant offset slot ++ [last] ++ B)) (hB : B ≠ [])
    (hdoes : ∀ e, sem.does last (last.uses.map fun u => if u = offset then slot else σ u) m e ↔
      e = ⟨vs, m', none⟩)
    (horigin : ∀ k < (loadConstant offset slot ++ [last]).length, origin? (A.length + k) = none)
    (hinside : ∀ k, 0 < k → k < (loadConstant offset slot ++ [last]).length →
      ¬ boundary (.instr (A.length + k))) :
    sem.Passes c origin? boundary ⟨.instr A.length, σ, m⟩
      ⟨.instr (A.length + (loadConstant offset slot ++ [last]).length),
        writeAll (fun u => if u = offset then slot else σ u) last.defs vs, m'⟩ := by
  have hlen : (loadConstant offset slot ++ [last]).length = (constantSteps slot).length + 1 := by
    simp [loadConstant]
  rw [hlen] at horigin hinside ⊢
  have hcode' : c.instrs = A ++ ((constantSteps slot).map (·.instr offset) ++ last :: B) := by
    rw [hcode, loadConstant, List.append_assoc]
    rfl
  have hconst : sem.Passes c origin? boundary ⟨.instr A.length, σ, m⟩ _ :=
    passes_constant hsem (constantSteps slot) hcode' (by simp) (fun k hk => horigin k (by omega))
      (fun k hpos hk => hinside k hpos (by omega))
  rw [constantValue_constantSteps] at hconst
  have hinstr : c.instrs[A.length + (constantSteps slot).length]? = some last := by
    rw [hcode', ← List.append_assoc, List.getElem?_append_right (by simp)]
    simp
  have hlt : A.length + (constantSteps slot).length + 1 < c.instrs.length := by
    have := List.length_pos_iff.mpr hB
    simp only [hcode', List.length_append, List.length_map, List.length_cons]
    omega
  have hlast : sem.Passes c origin? boundary
      ⟨.instr (A.length + (constantSteps slot).length), _, m⟩ _ :=
    passes_step hinstr hlt (horigin _ (by omega)) hdoes
  exact hconst.trans hlast (hinside _ (by simp [constantSteps]) (by omega))

/-- A load brings the word at the slot, and changes no other temporary but that of the offset. -/
theorem passes_loadSlot (hsem : sem.Spills mem) (hfp : fp ≠ offset)
    (hcode : c.instrs = A ++ (loadSlot fp slot offset value ++ B)) (hB : B ≠ [])
    (horigin : ∀ k < (loadSlot fp slot offset value).length, origin? (A.length + k) = none)
    (hinside : ∀ k, 0 < k → k < (loadSlot fp slot offset value).length →
      ¬ boundary (.instr (A.length + k))) :
    ∃ σ', σ' value = mem.load m (σ fp + slot) ∧ (∀ u, u ≠ offset → u ≠ value → σ' u = σ u) ∧
      sem.Passes c origin? boundary ⟨.instr A.length, σ, m⟩
        ⟨.instr (A.length + (loadSlot fp slot offset value).length), σ', m⟩ := by
  have hdoes : ∀ e, sem.does (.oper .loadSum [fp, offset] [value] [])
      ([fp, offset].map fun u => if u = offset then slot else σ u) m e ↔
        e = ⟨[mem.load m (σ fp + slot)], m, none⟩ := by
    intro e
    rw [List.map_cons, List.map_cons, List.map_nil, if_neg hfp, if_pos rfl]
    exact hsem.load
  refine ⟨_, ?_, ?_, passes_slot hsem hcode hB hdoes horigin hinside⟩
  · simp [Instr.defs, writeAll]
  · intro u ho hv
    simp [Instr.defs, writeAll, ho, hv]

/-- A store leaves the value in the word at the slot, and changes no temporary but that of the
offset. -/
theorem passes_storeSlot (hsem : sem.Spills mem) (hfp : fp ≠ offset) (hvalue : value ≠ offset)
    (hcode : c.instrs = A ++ (storeSlot fp slot offset value ++ B)) (hB : B ≠ [])
    (horigin : ∀ k < (storeSlot fp slot offset value).length, origin? (A.length + k) = none)
    (hinside : ∀ k, 0 < k → k < (storeSlot fp slot offset value).length →
      ¬ boundary (.instr (A.length + k))) :
    ∃ σ', (∀ u, u ≠ offset → σ' u = σ u) ∧
      sem.Passes c origin? boundary ⟨.instr A.length, σ, m⟩
        ⟨.instr (A.length + (storeSlot fp slot offset value).length), σ',
          mem.store m (σ fp + slot) (σ value)⟩ := by
  have hdoes : ∀ e, sem.does (.oper .storeSum [value, fp, offset] [] [])
      ([value, fp, offset].map fun u => if u = offset then slot else σ u) m e ↔
        e = ⟨[], mem.store m (σ fp + slot) (σ value), none⟩ := by
    intro e
    rw [List.map_cons, List.map_cons, List.map_cons, List.map_nil, if_neg hfp, if_neg hvalue,
      if_pos rfl]
    exact hsem.store
  refine ⟨_, ?_, passes_slot hsem hcode hB hdoes horigin hinside⟩
  intro u ho
  simp [Instr.defs, writeAll, ho]

end Semantics

end MmixBackend
