import MmixBackend.Proofs.Computer
import MmixBackend.Proofs.Listing
import MmixBackend.Proofs.Paths

/-!
# The lines of a body

A label has no line of its own in assembly: it waits for the next instruction and stands in front of
it.  A label that meets another one, or the end of the body, gets a line that does nothing.

The lines of a body are told apart here by where they come from, since an instruction may have the
same text as a line that does nothing.  Main statement: without the lines that were put in, the
lines are the instructions of the body in order; every label stands on one line; and from there only
lines that were put in come before the instruction that a jump to the label is for, or before the
end.
-/

namespace MmixBackend

open Build

/-- The instructions other than labels. -/
def Instr.operations (is : List Instr) : List Instr := is.filter (·.label?.isNone)

variable {is : List Instr} {l : Label}

theorem Instr.mem_labels : l ∈ Instr.labels is ↔ .label l ∈ is := by
  constructor
  · intro h
    obtain ⟨i, hi, hl⟩ := List.mem_filterMap.mp h
    cases i with
    | label l' =>
      cases hl
      exact hi
    | oper | move => cases hl
  · exact fun h => List.mem_filterMap.mpr ⟨_, h, rfl⟩

namespace Assembly

/-- Where a line of a body comes from: it was put in to hold a label, or it is an instruction, with
the label that waited for it. -/
inductive Piece where
  | filler (l : Label)
  | work (l : Option Label) (i : Instr)

namespace Piece

def label? : Piece → Option Label
  | filler l => some l
  | work l _ => l

def instr? : Piece → Option Instr
  | filler _ => none
  | work _ i => some i

def line (names : Names) (a : Allocation) : Piece → Mmix.Line
  | filler l => Assembly.filler (names.textOf l)
  | work l i => instrLine names a (l.map names.textOf) i

theorem label_line (names : Names) (a : Allocation) (p : Piece) :
    (p.line names a).label = p.label?.map names.textOf := by
  cases p <;> rfl

end Piece

/-- The pieces of a body, with a label that waits. -/
def pieces : Option Label → List Instr → List Piece
  | waiting, [] => waiting.toList.map .filler
  | waiting, .label l :: is => waiting.toList.map .filler ++ pieces (some l) is
  | waiting, i :: is => .work waiting i :: pieces none is

theorem filterMap_instr?_fillers (ls : List Label) :
    (ls.map Piece.filler).filterMap Piece.instr? = [] := by
  simp [Piece.instr?]

theorem filterMap_label?_fillers (ls : List Label) :
    (ls.map Piece.filler).filterMap Piece.label? = ls := by
  induction ls with
  | nil => rfl
  | cons l ls ih => exact congrArg (l :: ·) ih

variable {a : Allocation}

/-- The pieces are what the lines are made from. -/
theorem bodyFrom_eq {names : Names} (h : ∀ i ∈ is, unallocated? a i = none) (waiting : Option Label) :
    bodyFrom names a (waiting.map names.textOf) is =
      .ok ((pieces waiting is).map (·.line names a)) := by
  have hfillers : ∀ w : Option Label, (w.map names.textOf).toList.map filler =
      (w.toList.map Piece.filler).map (·.line names a) := by
    intro w
    cases w <;> rfl
  induction is generalizing waiting with
  | nil => rw [bodyFrom, pieces, hfillers]
  | cons i is ih =>
    have hrest := ih fun j hj => h j (List.mem_cons_of_mem _ hj)
    cases i with
    | label l =>
      rw [bodyFrom, pieces, List.map_append, ← hfillers]
      exact except_bind_ok.mpr ⟨_, hrest (some l), rfl⟩
    | oper | move =>
      simp only [bodyFrom, h _ List.mem_cons_self]
      exact except_bind_ok.mpr ⟨_, hrest none, rfl⟩

/-- No instruction is lost, added or moved. -/
theorem instrs_pieces (waiting : Option Label) (is : List Instr) :
    (pieces waiting is).filterMap Piece.instr? = Instr.operations is := by
  induction is generalizing waiting with
  | nil => exact filterMap_instr?_fillers _
  | cons i is ih =>
    cases i with
    | label l =>
      rw [pieces, List.filterMap_append, filterMap_instr?_fillers, ih]
      rfl
    | oper op us ds js => exact congrArg (Instr.oper op us ds js :: ·) (ih none)
    | move op d s => exact congrArg (Instr.move op d s :: ·) (ih none)

/-- No label is lost, added or moved past another. -/
theorem labels_pieces (waiting : Option Label) (is : List Instr) :
    (pieces waiting is).filterMap Piece.label? = waiting.toList ++ Instr.labels is := by
  induction is generalizing waiting with
  | nil =>
    rw [pieces, filterMap_label?_fillers]
    exact (List.append_nil _).symm
  | cons i is ih =>
    cases i with
    | label l =>
      rw [pieces, List.filterMap_append, filterMap_label?_fillers, ih]
      rfl
    | oper | move =>
      rw [pieces, List.filterMap_cons, ih]
      cases waiting <;> rfl
      simp

/-- A label parts the pieces: those of what stands before it, and those that it waits for. -/
theorem pieces_label (waiting : Option Label) (pre post : List Instr) (l : Label) :
    pieces waiting (pre ++ .label l :: post) = pieces waiting pre ++ pieces (some l) post := by
  induction pre generalizing waiting with
  | nil => rfl
  | cons i pre ih =>
    cases i with
    | label l' => rw [List.cons_append, pieces, ih, pieces, List.append_assoc]
    | oper | move =>
      rw [List.cons_append, pieces, ih, pieces, List.cons_append]
      all_goals simp

/-- A label that waits stands on the first line, and lines that do nothing follow up to the next
instruction. -/
theorem pieces_some (l : Label) (is : List Instr) :
    (pieces (some l) is).head?.bind Piece.label? = some l ∧
      ∃ (ls : List Label) (rest : List Piece), pieces (some l) is = ls.map Piece.filler ++ rest ∧
        (rest = [] ∨ ∃ w i rest', rest = .work w i :: rest') := by
  induction is generalizing l with
  | nil => exact ⟨rfl, [l], [], rfl, Or.inl rfl⟩
  | cons i is ih =>
    cases i with
    | label l' =>
      obtain ⟨-, ls, rest, hpieces, hrest⟩ := ih l'
      refine ⟨rfl, l :: ls, rest, ?_, hrest⟩
      rw [pieces, hpieces]
      rfl
    | oper | move => exact ⟨rfl, [], _, rfl, Or.inr ⟨_, _, _, rfl⟩⟩

/-! ## Jumps -/

/-- Pieces to jump to: the first has the label, and only lines that do nothing come before the first
of the instructions to execute, or before the end if there are none. -/
structure LeadTo (l : Label) (is : List Instr) (ps : List Piece) : Prop where
  label : ps.head?.bind Piece.label? = some l
  instrs : ps.filterMap Piece.instr? = Instr.operations is
  next : ∃ ls : List Label, Instr.operations is = [] ∧ ps = ls.map Piece.filler ∨
    ∃ w i rest, (Instr.operations is).head? = some i ∧ ps = ls.map Piece.filler ++ .work w i :: rest

theorem leadTo_pieces (l : Label) (is : List Instr) : LeadTo l is (pieces (some l) is) := by
  obtain ⟨hhead, ls, rest, hpieces, hrest⟩ := pieces_some l is
  have hinstrs := instrs_pieces (some l) is
  refine ⟨hhead, hinstrs, ls, ?_⟩
  rw [hpieces, List.filterMap_append, filterMap_instr?_fillers, List.nil_append] at hinstrs
  rcases hrest with rfl | ⟨w, i, rest, rfl⟩
  · exact Or.inl ⟨hinstrs.symm, by rw [hpieces, List.append_nil]⟩
  · exact Or.inr ⟨w, i, rest, by rw [← hinstrs]; rfl, hpieces⟩

/-- Lines are entered at the first one with the text of a label. -/
theorem dropWhile_lines {names : Names} {above below : List Piece}
    (habove : ∀ p ∈ above, p.label?.map names.textOf ≠ some (names.textOf l))
    (hbelow : below.head?.bind Piece.label? = some l) :
    ((above ++ below).map (·.line names a)).dropWhile (·.label ≠ some (names.textOf l)) =
      below.map (·.line names a) := by
  rw [List.map_append, List.dropWhile_append_of_pos]
  · cases below with
    | nil => rfl
    | cons p below =>
      have hp : p.label? = some l := hbelow
      simp [Piece.label_line, hp]
  · intro line hline
    obtain ⟨p, hp, rfl⟩ := List.mem_map.mp hline
    simpa [Piece.label_line] using habove p hp

/-- A line that was put in is an instruction that changes nothing. -/
theorem filler_idle (text : String) (c : Mmix.Computer) :
    ∃ i : Mmix.Instr, i.line = filler text ∧ c.exec? i = some c :=
  ⟨{ label := some text, op := .set, args := [.reg 0, .reg 0] }, rfl,
    congrArg some (c.set_registers 0)⟩

theorem head_storeResult {exit : String} {is : List Mmix.Instr} (h : storeResult exit a = some is) :
    is.head?.bind (·.label) = some exit := by
  simp only [storeResult] at h
  split at h
  · cases h
    rfl
  · cases h
    exact Mmix.head_loadValue _ _ _
  · cases h

/-- A label that is defined once stands on one side of every place. -/
theorem label_notMem_take {k : Nat} (h : (Instr.labels is).Nodup) (hk : is[k]? = some (.label l)) :
    .label l ∉ is.take k := by
  intro hbefore
  have hafter : .label l ∈ is.drop k := by
    refine List.mem_of_getElem? (i := 0) ?_
    rw [List.getElem?_drop, Nat.add_zero, hk]
  rw [← List.take_append_drop k is, Instr.labels_append] at h
  exact (List.nodup_append.mp h).2.2 l (Instr.mem_labels.mpr hbefore) l
    (Instr.mem_labels.mpr hafter) rfl

/-- A label that is defined once is where a jump to it goes. -/
theorem lastAt_of_nodup {k : Nat} (h : (Instr.labels is).Nodup) (hk : is[k]? = some (.label l)) :
    Code.LastAt is l k := by
  refine ⟨hk, fun j hj hj' => label_notMem_take h hj' (List.mem_of_getElem? (i := k) ?_)⟩
  rw [List.getElem?_take_of_lt hj, hk]

/-- Emitting a body keeps the instructions in order, puts every label on one line, and lets a jump
to a label execute the instruction that it executes in the code. -/
theorem body_keeps_places (names : Names) (a : Allocation)
    (hlabels : (Instr.labels a.code.instrs).Nodup)
    (hregs : ∀ t, a.code.Mentions t → (a.register? t).isSome) :
    ∃ ps : List Piece, body names a = .ok (ps.map (·.line names a)) ∧
      ps.filterMap Piece.instr? = Instr.operations a.code.instrs ∧
      (∀ l, .label l ∈ a.code.instrs → ps.countP (·.label? == some l) = 1) ∧
      (∀ l k, a.code.instrs[k]? = some (.label l) →
        (l ≠ a.code.exit →
          a.code.target? (Code.labelsFrom 0 ∅ a.code.instrs) l = some (.instr k)) ∧
        ∃ above below, ps = above ++ below ∧
          above.filterMap Piece.instr? = Instr.operations (a.code.instrs.take k) ∧
          LeadTo l (a.code.instrs.drop k) below ∧
          ((∀ l', .label l' ∈ a.code.instrs → names.textOf l' = names.textOf l → l' = l) →
            (ps.map (·.line names a)).dropWhile (·.label ≠ some (names.textOf l)) =
              below.map (·.line names a))) ∧
      (∀ l (c : Mmix.Computer), ∃ i : Mmix.Instr, i.line = (Piece.filler l).line names a ∧
        c.exec? i = some c) ∧
      ∀ st lines st', function names a st = .ok lines st' →
        ∃ start finish, lines = start ++ ps.map (·.line names a) ++ finish ∧
          finish.head?.bind (·.label) = some (names.textOf a.code.exit) := by
  have hemitted : body names a = .ok ((pieces none a.code.instrs).map (·.line names a)) :=
    bodyFrom_eq (fun i hi => unallocated?_eq_none fun t ht =>
      hregs t ⟨i, hi, List.mem_append.mp ht⟩) none
  refine ⟨pieces none a.code.instrs, hemitted, instrs_pieces _ _, ?_, ?_,
    fun l c => filler_idle (names.textOf l) c, ?_⟩
  · intro l hl
    rw [← List.count_filterMap, labels_pieces]
    exact List.count_eq_one_of_mem hlabels (Instr.mem_labels.mpr hl)
  · intro l k hk
    have hlt := (List.getElem?_eq_some_iff.mp hk).1
    have hdrop : a.code.instrs.drop k = .label l :: a.code.instrs.drop (k + 1) := by
      rw [List.drop_eq_getElem_cons hlt, (List.getElem?_eq_some_iff.mp hk).2]
    have hsplit : a.code.instrs =
        a.code.instrs.take k ++ .label l :: a.code.instrs.drop (k + 1) := by
      rw [← hdrop, List.take_append_drop]
    have hpieces := pieces_label none (a.code.instrs.take k) (a.code.instrs.drop (k + 1)) l
    rw [← hsplit] at hpieces
    have hlead := leadTo_pieces l (a.code.instrs.drop (k + 1))
    refine ⟨fun hexit => Code.target?_eq_some.mpr
      (Or.inr ⟨hexit, k, lastAt_of_nodup hlabels hk, rfl⟩), _, _, hpieces, instrs_pieces _ _,
      hdrop ▸ ⟨hlead.label, hlead.instrs, hlead.next⟩, fun htext => ?_⟩
    rw [hpieces]
    refine dropWhile_lines (fun p hp hsame => ?_) hlead.label
    -- a line above with this text would have the same label, which is defined only once
    obtain ⟨l', hl', heq⟩ := Option.map_eq_some_iff.mp hsame
    have habove := List.mem_filterMap.mpr ⟨p, hp, hl'⟩
    rw [labels_pieces, Option.toList_none, List.nil_append] at habove
    have hmem := Instr.mem_labels.mp habove
    obtain rfl := htext l' (List.mem_of_mem_take hmem) heq
    exact label_notMem_take hlabels hk hmem
  · intro st lines st' h
    obtain ⟨start, inner, stored, finish, -, hbody, hstored, -, rfl⟩ := function_ok h
    rw [hemitted] at hbody
    cases hbody
    refine ⟨_, _, rfl, ?_⟩
    have hhead := head_storeResult hstored
    cases stored with
    | nil => cases hhead
    | cons i stored => exact hhead

/-- Two labels in a row, an instruction with the text of a line that does nothing, and a label at
the end. -/
def rounded : Allocation where
  code := { name := "_f", frame := ⟨⟨0⟩, 0, 0, 0, 16, ⟨0⟩, ⟨1⟩⟩, entry := ⟨1⟩, exit := ⟨5⟩,
            instrs := [.label ⟨1⟩, .label ⟨2⟩, .move .copy ⟨1⟩ ⟨1⟩, .label ⟨3⟩,
              .oper (.jump "L2") [] [] [⟨2⟩], .label ⟨4⟩] }
  registers := (∅ : Table Temp Nat).insert ⟨1⟩ 0
  liveness := {}
  rounds := 1

theorem body_keeps_places_rounded :
    (Instr.labels rounded.code.instrs).Nodup ∧
      (∀ t, rounded.code.Mentions t → (rounded.register? t).isSome) ∧
      ∃ ps : List Piece, body {} rounded = .ok (ps.map (·.line {} rounded)) ∧
        ps.filterMap Piece.instr? = Instr.operations rounded.code.instrs ∧
        (∀ l, .label l ∈ rounded.code.instrs → ps.countP (·.label? == some l) = 1) ∧
        ∃ above below, ps = above ++ below ∧
          LeadTo ⟨2⟩ (rounded.code.instrs.drop 1) below := by
  have hlabels : (Instr.labels rounded.code.instrs).Nodup := by decide
  have hregs : ∀ t, rounded.code.Mentions t → (rounded.register? t).isSome := by
    rintro t ⟨i, hi, ht⟩
    obtain rfl : t = ⟨1⟩ := by
      simp only [rounded, List.mem_cons, List.not_mem_nil, or_false] at hi
      rcases hi with rfl | rfl | rfl | rfl | rfl | rfl <;> simp [Instr.uses, Instr.defs] at ht
      exact ht
    rw [Allocation.register?, rounded, Std.ExtTreeMap.getElem?_insert_self]
    rfl
  obtain ⟨ps, hps, hinstrs, hones, hjumps, -⟩ := body_keeps_places {} rounded hlabels hregs
  obtain ⟨-, above, below, heq, -, hlead, -⟩ := hjumps ⟨2⟩ 1 rfl
  exact ⟨hlabels, hregs, ps, hps, hinstrs, hones, above, below, heq, hlead⟩

end Assembly

end MmixBackend
