import MmixBackend.Proofs.Assembling
import MmixBackend.Proofs.DataLabels
import MmixBackend.Proofs.WellFormed

/-!
# Labels of a listing

A listing is an assembled program line by line, with the label of each line still apart from the
rest of it.  The labels of a listing are those of global registers and buffers, of data, of the
start-up code, of functions with their bodies, and of what the machine provides.

Selecting instructions, spilling and emitting keep the labels of a function as they are: a label
that meets another one gets a line to itself.  So no label stands twice in a listing, unless the
program defines at top level what the machine provides already.

The text of a line starts with its label.  Where names have no white space, the labels are read
off the lines.
-/

namespace MmixBackend

open Typed Build

/-! ## Labels of instructions -/

def Instr.label? : Instr → Option Label
  | .label l => some l
  | .oper .. | .move .. => none

def Instr.labels (is : List Instr) : List Label := is.filterMap Instr.label?

/-- The labels of a function's code: its own, those in its body and that of its end. -/
def Code.labels (c : Code) : List Label := c.frame.label :: (Instr.labels c.instrs ++ [c.exit])

theorem Instr.labels_append (is is' : List Instr) :
    Instr.labels (is ++ is') = Instr.labels is ++ Instr.labels is' := List.filterMap_append

theorem Instr.labels_eq_nil {is : List Instr} (h : ∀ l, .label l ∉ is) : Instr.labels is = [] := by
  refine List.filterMap_eq_nil_iff.mpr fun i hi => ?_
  cases i with
  | label l => exact absurd hi (h l)
  | oper | move => rfl

namespace Selection

variable {window : Nat} {loc : Location}

theorem labels_stmt {st : Ir.Stmt} {s s' : Session} {block : List Instr} (hst : st.isCanonical)
    (h : stmt window loc st s = .ok block s') : Instr.labels block = st.labels := by
  by_cases hl : ∃ l, st = .label l
  · obtain ⟨l, rfl⟩ := hl
    simp only [stmt, pure_ok] at h
    rw [h.1]
    rfl
  · rw [Instr.labels_eq_nil fun l hmem => 
      hl ⟨l, Ir.Stmt.eq_label_of_mem_labels hst (label_mem_stmt h hmem)⟩]
    refine (List.eq_nil_iff_forall_not_mem.mpr fun l hmem => ?_).symm
    exact hl ⟨l, Ir.Stmt.eq_label_of_mem_labels hst hmem⟩

theorem labels_stmts {ss : List Ir.Stmt} :
    ∀ {s s' : Session} {code : List Instr}, Ir.isCanonical ss →
      stmts window loc ss s = .ok code s' → Instr.labels code = Ir.Stmt.listLabels ss := by
  induction ss with
  | nil =>
    intro s s' code _ h
    simp only [stmts, pure_ok] at h
    rw [h.1]
    rfl
  | cons st ss ih =>
    intro s s' code hcanon h
    rw [Ir.isCanonical, List.all_cons, Bool.and_eq_true] at hcanon
    simp only [stmts, bind_ok, pure_ok] at h
    obtain ⟨block, s₁, hst, rest, _, hss, rfl, rfl⟩ := h
    rw [Instr.labels_append, labels_stmt hcanon.1 hst, ih hcanon.2 hss, Ir.Stmt.listLabels]

end Selection

theorem Spill.labels_codes {sp : Spill} (is : List Instr) :
    ∀ n : Nat, Instr.labels (sp.codes is n) = Instr.labels is := by
  induction is with
  | nil => exact fun _ => rfl
  | cons i is ih =>
    intro n
    rw [Spill.codes, Instr.labels_append, ih, ← List.singleton_append, Instr.labels_append]
    refine congrArg (· ++ Instr.labels is) ?_
    cases i with
    | label l => rfl
    | oper | move => exact Instr.labels_eq_nil (Spill.label_notMem_code (by simp))

theorem labels_selectAll (window : Nat) {chunks : List CodeChunk} :
    ∀ {s s' : Session} {codes : List Code}, (∀ c ∈ chunks, Ir.isCanonical c.stmts) →
      chunks.mapM (·.select window) s = .ok codes s' →
      s.names ≤ s'.names ∧
        codes.map Code.labels = chunks.map fun c => c.frame.label :: c.labels := by
  induction chunks with
  | nil =>
    intro s s' codes _ h
    obtain ⟨rfl, rfl⟩ := pure_ok.mp h
    exact ⟨Names.le_refl _, rfl⟩
  | cons c chunks ih =>
    intro s s' codes hcanon h
    rw [List.mapM_cons] at h
    obtain ⟨code, s₁, hc, h⟩ := bind_ok.mp h
    obtain ⟨rest, s₂, hrest, h⟩ := bind_ok.mp h
    obtain ⟨rfl, rfl⟩ := pure_ok.mp h
    obtain ⟨hle, hlabels⟩ := ih (fun c' hc' => hcanon c' (List.mem_cons_of_mem _ hc')) hrest
    have hpicks := (CodeChunk.select_ok hc).1
    refine ⟨Names.le_trans hpicks.names hle, ?_⟩
    simp only [CodeChunk.select, bind_ok, note_ok, pure_ok] at hc
    obtain ⟨instrs, s₃, hs, _, _, -, rfl, -⟩ := hc
    have hown := Selection.labels_stmts (hcanon c List.mem_cons_self) hs
    rw [List.map_cons, List.map_cons, hlabels, Code.labels, CodeChunk.labels, hown]

theorem labels_allocate {c : Code} {k : Nat} {s s' : Session} {a : Allocation}
    (h : c.allocate k s = .ok a s') : s.names ≤ s'.names ∧ a.code.labels = c.labels := by
  obtain ⟨-, -, hrounds⟩ := Code.allocate_ok h
  refine ⟨Code.allocateRounds_le hrounds, ?_⟩
  refine (Code.allocateRounds_induction (P := fun c' _ => c'.labels = c.labels) ?_ rfl hrounds).1
  intro c₁ c₂ _ _ st₁ st₂ hlabels hspill
  refine Code.spillAll_induction (P := fun c' _ => c'.labels = c.labels) ?_ hlabels hspill
  intro c₃ st₃ t offset spillSize _ _ hlabels₃
  rw [← hlabels₃, Code.labels, Code.labels, Spill.labels_codes]

theorem labels_allocateAll {k : Nat} {codes : List Code} :
    ∀ {s s' : Session} {as : List Allocation}, allocateAll codes k s = .ok as s' →
      s.names ≤ s'.names ∧ as.map (·.code.labels) = codes.map Code.labels := by
  induction codes with
  | nil =>
    intro s s' as h
    obtain ⟨rfl, rfl⟩ := pure_ok.mp h
    exact ⟨Names.le_refl _, rfl⟩
  | cons c codes ih =>
    intro s s' as h
    rw [allocateAll, List.mapM_cons] at h
    obtain ⟨a, s₁, ha, h⟩ := bind_ok.mp h
    obtain ⟨rest, s₂, hrest, h⟩ := bind_ok.mp h
    obtain ⟨rfl, rfl⟩ := pure_ok.mp h
    obtain ⟨hle, hlabels⟩ := labels_allocate ha
    obtain ⟨hle', hlabels'⟩ := ih hrest
    exact ⟨Names.le_trans hle hle', by rw [List.map_cons, List.map_cons, hlabels, hlabels']⟩

namespace Assembly

/-! ## Lines of functions -/

variable {s s' : Session} {as : List Allocation} {data : List DataChunk} {rows : List Row}

section Functions

variable {names : Names} {a : Allocation}

theorem labels_loadValue (label : Option String) (v : Word) :
    (Mmix.loadValue label v).filterMap (·.label) = label.toList := by
  have hrest : ∀ steps : List ConstantStep,
      (steps.map Mmix.ofConstantStep).filterMap (·.label) = [] := by
    intro steps
    refine List.filterMap_eq_nil_iff.mpr fun i hi => ?_
    obtain ⟨step, -, rfl⟩ := List.mem_map.mp hi
    cases step <;> rfl
  rw [Mmix.loadValue, constantSteps, List.map_cons, Mmix.labelled, List.filterMap_cons, hrest]
  cases label <;> rfl

theorem labels_lines (is : List Mmix.Instr) :
    (is.map (·.line)).filterMap (·.label) = is.filterMap (·.label) := List.filterMap_map

variable {is : List Mmix.Instr}

theorem labels_prologue {c : Code} (h : prologue names c = .ok is) :
    is.filterMap (·.label) = [names.textOf c.frame.label] := by
  obtain ⟨below, -, h⟩ := except_bind_ok.mp h
  obtain ⟨saved, -, h⟩ := except_bind_ok.mp h
  obtain ⟨room, -, h⟩ := except_bind_ok.mp h
  cases h
  simp [labels_loadValue, saving, lowering]

theorem labels_storeResult {exit : String} (h : storeResult exit a = some is) :
    is.filterMap (·.label) = [exit] := by
  simp only [storeResult] at h
  split at h
  · cases h
    rfl
  · cases h
    simp [labels_loadValue]
  · cases h

theorem labels_restore {c : Code} (h : restore c = .ok is) :
    is.filterMap (·.label) = [] := by
  obtain ⟨below, -, h⟩ := except_bind_ok.mp h
  obtain ⟨savedReturn, -, h⟩ := except_bind_ok.mp h
  obtain ⟨savedFp, -, h⟩ := except_bind_ok.mp h
  cases h
  simp [labels_loadValue, returning, leaving]

/-- Every label of a body stands on one line; one that waits comes first. -/
theorem labels_bodyFrom {is : List Instr} :
    ∀ {waiting : Option String} {lines : List Mmix.Line},
      bodyFrom names a waiting is = .ok lines →
      lines.filterMap (·.label) = waiting.toList ++ (Instr.labels is).map names.textOf := by
  have hfiller : ∀ waiting : Option String,
      (waiting.toList.map filler).filterMap (·.label) = waiting.toList := by
    intro waiting
    cases waiting <;> rfl
  induction is with
  | nil =>
    intro waiting lines h
    cases h
    rw [hfiller]
    exact (List.append_nil _).symm
  | cons i is ih =>
    intro waiting lines h
    cases i with
    | label l =>
      simp only [bodyFrom, bind, Except.bind] at h
      split at h
      · cases h
      · next rest hrest =>
        cases h
        rw [List.filterMap_append, hfiller, ih hrest]
        rfl
    | oper | move =>
      simp only [bodyFrom, bind, Except.bind] at h
      split at h
      · cases h
      · split at h
        · cases h
        · next rest hrest =>
          cases h
          rw [List.filterMap_cons, ih hrest]
          cases waiting <;> rfl

/-- A function that is emitted has a prologue, a body, instructions for the return value and those
that go back. -/
theorem function_ok {lines : List Mmix.Line} (h : function names a s = .ok lines s') :
    ∃ start inner stored finish, prologue names a.code = .ok start ∧ body names a = .ok inner ∧
      storeResult (names.textOf a.code.exit) a = some stored ∧ restore a.code = .ok finish ∧
      lines = start.map (·.line) ++ inner ++ (stored ++ finish).map (·.line) := by
  unfold function at h
  cases hbody : body names a with
  | error d => simp only [hbody, bind_ok, defect_ok, false_and, and_false, exists_false] at h
  | ok inner =>
    cases hstored : storeResult (names.textOf a.code.exit) a with
    | none =>
      simp only [hbody, hstored, bind_ok, pure_ok, defect_ok, false_and, and_false,
        exists_false] at h
    | some stored =>
      simp only [hbody, hstored, bind_ok, pure_ok, exactly_ok] at h
      obtain ⟨start, _, ⟨hstart, rfl⟩, _, _, ⟨rfl, rfl⟩, _, _, ⟨rfl, rfl⟩, finish, _,
        ⟨hfinish, rfl⟩, rfl, rfl⟩ := h
      exact ⟨start, _, _, finish, hstart, rfl, rfl, hfinish, rfl⟩

theorem labels_function {lines : List Mmix.Line} (h : function names a s = .ok lines s') :
    lines.filterMap (·.label) = a.code.labels.map names.textOf := by
  obtain ⟨start, inner, stored, finish, hstart, hbody, hstored, hfinish, rfl⟩ := function_ok h
  rw [List.filterMap_append, List.filterMap_append, labels_lines, labels_lines,
    List.filterMap_append, labels_prologue hstart, labels_bodyFrom hbody,
    labels_storeResult hstored, labels_restore hfinish]
  simp [Code.labels]

end Functions

/-! ## The labels of a listing -/

def Row.label? : Row → Option String
  | .line l => l.label
  | .remark _ => none

/-- What the machine provides. -/
def provided : List String := ["new", "del", "putc", "getc"]

/-- The labels of global registers, buffers and the start-up code. -/
def fixedLabels : List String :=
  ["SP", "FP", "HP", "OutBuf", "InSize", "InBuf", "InArgs", "Main"]

theorem labels_line_rows (lines : List Mmix.Line) :
    (lines.map Row.line).filterMap Row.label? = lines.filterMap (·.label) := by
  rw [List.filterMap_map]
  rfl

theorem labels_data (names : Names) (data : List DataChunk) :
    (data.flatMap (datum names)).filterMap (·.label) = data.map fun d => names.textOf d.label := by
  induction data with
  | nil => rfl
  | cons d data ih =>
    have hown : (datum names d).filterMap (·.label) = [names.textOf d.label] := by
      unfold datum
      split
      · rfl
      · split <;> rfl
    rw [List.flatMap_cons, List.filterMap_append, hown, ih]
    rfl

theorem labels_bootstrap (names : Names) (data : List DataChunk) (k : Nat) :
    ((bootstrap names data k).filterMap Row.label?).Perm
      (fixedLabels ++ data.map fun d => names.textOf d.label) := by
  rw [bootstrap, List.filterMap_append, List.filterMap_append, List.filterMap_append,
    labels_line_rows, labels_data, List.append_assoc, List.append_assoc]
  have hmove : ((data.map fun d => names.textOf d.label) ++ ["Main"]).Perm
      (["Main"] ++ data.map fun d => names.textOf d.label) := List.perm_append_comm
  exact hmove.append_left ["SP", "FP", "HP", "OutBuf", "InSize", "InBuf", "InArgs"]

theorem labels_runtime : runtime.filterMap Row.label? = provided.map ("_" ++ ·) := by
  decide

theorem labels_functions {names : Names} :
    ∀ {s s' : Session} {rows : List Row}, functions names as s = .ok rows s' →
      rows.filterMap Row.label? = (as.flatMap (·.code.labels)).map names.textOf := by
  induction as with
  | nil =>
    intro s s' rows h
    obtain ⟨rfl, -⟩ := pure_ok.mp h
    rfl
  | cons a as ih =>
    intro s s' rows h
    rw [functions] at h
    obtain ⟨lines, s₁, hlines, h⟩ := bind_ok.mp h
    obtain ⟨rest, s₂, hrest, h⟩ := bind_ok.mp h
    obtain ⟨rfl, -⟩ := pure_ok.mp h
    rw [List.filterMap_cons_none rfl, List.filterMap_cons_none rfl, List.filterMap_append,
      labels_line_rows, labels_function hlines, ih hrest, List.flatMap_cons, List.map_append]

theorem listing_ok {k : Nat} (h : listing data as k s = .ok rows s') :
    ∃ code s₁, functions s.names as s = .ok code s₁ ∧
      rows = bootstrap s.names data k ++ code ++ runtime := by
  have hget : (get : Build Session) s = .ok s s := rfl
  rw [listing, bind_of_ok hget] at h
  cases hmain : as.any (isMain s.names) with
  | false =>
    rw [hmain] at h
    cases h
  | true =>
    rw [hmain] at h
    obtain ⟨code, s₁, hcode, h⟩ := bind_ok.mp h
    obtain ⟨_, s₂, -, h⟩ := bind_ok.mp h
    exact ⟨code, s₁, hcode, (pure_ok.mp h).1⟩

theorem labels_listing {k : Nat} (h : listing data as k s = .ok rows s') :
    (rows.filterMap Row.label?).Perm (fixedLabels ++
      ((data.map (·.label) ++ as.flatMap (·.code.labels)).map s.names.textOf ++
        provided.map ("_" ++ ·))) := by
  obtain ⟨code, s₁, hcode, rfl⟩ := listing_ok h
  rw [List.filterMap_append, List.filterMap_append, labels_functions hcode, labels_runtime,
    List.map_append, List.map_map, ← List.append_assoc, ← List.append_assoc]
  exact ((labels_bootstrap s.names data k).append_right _).append_right _

/-! ## Labels read off lines -/

/-- The label that a line starts with; a comment has none. -/
def readLabel? (line : String) : Option String :=
  let word := line.toList.takeWhile fun c => !Text.isBlank c
  if word = [] ∨ word.head? = some '%' then none else some (String.ofList word)

/-- A text that can be read as a label. -/
def IsWord (s : String) : Prop :=
  s.toList ≠ [] ∧ s.toList.head? ≠ some '%' ∧ ∀ c ∈ s.toList, Text.isBlank c = false

instance (s : String) : Decidable (IsWord s) :=
  @instDecidableAnd _ _ _ (@instDecidableAnd _ _ _ (List.decidableBAll _ _))

theorem trimEnd_append {w r : List Char} (hw : ∀ c ∈ w, Text.isBlank c = false) :
    Text.trimEnd (w ++ r) = w ++ Text.trimEnd r := by
  have hkeep : w.reverse.dropWhile Text.isBlank = w.reverse := by
    cases hrev : w.reverse with
    | nil => rfl
    | cons c cs =>
      have hc := hw c (List.mem_reverse.mp (hrev ▸ List.mem_cons_self))
      rw [List.dropWhile_cons_of_neg (by simp [hc])]
  rw [Text.trimEnd, Text.trimEnd, List.reverse_append, List.dropWhile_append]
  split
  · next hempty =>
    rw [List.isEmpty_iff.mp hempty, hkeep, List.reverse_reverse, List.reverse_nil, List.append_nil]
  · rw [List.reverse_append, List.reverse_reverse]

/-- A word up to the first blank is left, wherever the text is cut behind it. -/
theorem takeWhile_trimEnd {w r : List Char} (hw : ∀ c ∈ w, Text.isBlank c = false) :
    (Text.trimEnd (w ++ ' ' :: r)).takeWhile (fun c => !Text.isBlank c) = w := by
  rw [trimEnd_append hw, List.takeWhile_append_of_pos fun c hc => by simp [hw c hc]]
  have hcut : Text.trimEnd (' ' :: r) <+: ' ' :: r := by
    rw [Text.trimEnd, ← List.reverse_suffix, List.reverse_reverse]
    exact List.dropWhile_suffix _
  have hnone : (Text.trimEnd (' ' :: r)).takeWhile (fun c => !Text.isBlank c) = [] := by
    cases htrim : Text.trimEnd (' ' :: r) with
    | nil => rfl
    | cons c cs =>
      rw [htrim, List.cons_prefix_cons] at hcut
      rw [hcut.1]
      rfl
  rw [hnone, List.append_nil]

theorem readLabel?_line {l : Mmix.Line} (h : ∀ t, l.label = some t → IsWord t) :
    readLabel? l.text = l.label := by
  -- blanks fill the column, and one more ends it
  have hfill : ∀ (n : Nat) (r : List Char),
      List.replicate n ' ' ++ ' ' :: r = ' ' :: (List.replicate n ' ' ++ r) := by
    intro n r
    rw [← List.cons_append, ← List.replicate_succ, List.replicate_succ', List.append_assoc]
    rfl
  have htext : ∃ r, l.text.toList = Text.trimEnd ((l.label.getD "").toList ++ ' ' :: r) := by
    rw [Mmix.Line.text, String.toList_ofList, Text.padTo, List.append_assoc, hfill]
    exact ⟨_, rfl⟩
  obtain ⟨r, hr⟩ := htext
  cases hl : l.label with
  | none =>
    rw [readLabel?, hr, hl, Option.getD_none, takeWhile_trimEnd (by simp)]
    rfl
  | some t =>
    obtain ⟨hne, hhead, hblank⟩ := h t hl
    rw [readLabel?, hr, hl, Option.getD_some, takeWhile_trimEnd hblank,
      if_neg (not_or.mpr ⟨hne, hhead⟩), String.ofList_toList]

theorem readLabel?_comment (s : String) : readLabel? (comment s) = none := by
  simp [readLabel?, comment, String.toList_append, Text.isBlank]

/-- A row from which nothing but its label is read as one. -/
def Row.isPlain : Row → Bool
  | .line _ => true
  | .remark t => (readLabel? t).isNone

theorem isPlain_line_rows (lines : List Mmix.Line) : (lines.map Row.line).all Row.isPlain := by
  rw [List.all_map]
  exact List.all_eq_true.mpr fun _ _ => rfl

theorem isPlain_bootstrap (names : Names) (data : List DataChunk) (k : Nat) :
    (bootstrap names data k).all Row.isPlain := by
  simp only [bootstrap, List.all_append, isPlain_line_rows, Bool.and_true]
  rfl

theorem isPlain_functions {names : Names} :
    ∀ {s s' : Session} {rows : List Row}, functions names as s = .ok rows s' →
      rows.all Row.isPlain := by
  induction as with
  | nil =>
    intro s s' rows h
    obtain ⟨rfl, -⟩ := pure_ok.mp h
    rfl
  | cons a as ih =>
    intro s s' rows h
    rw [functions] at h
    obtain ⟨lines, s₁, -, h⟩ := bind_ok.mp h
    obtain ⟨rest, s₂, hrest, h⟩ := bind_ok.mp h
    obtain ⟨rfl, -⟩ := pure_ok.mp h
    have hname : Row.isPlain (.remark (comment ("function " ++ a.code.name))) := by
      rw [Row.isPlain, readLabel?_comment]
      rfl
    have hblank : Row.isPlain (.remark "") := by decide
    rw [List.all_cons, List.all_cons, List.all_append, isPlain_line_rows, ih hrest, hname, hblank]
    rfl

theorem isPlain_listing {k : Nat} (h : listing data as k s = .ok rows s') :
    rows.all Row.isPlain := by
  obtain ⟨code, s₁, hcode, rfl⟩ := listing_ok h
  have hruntime : runtime.all Row.isPlain := by decide
  rw [List.all_append, List.all_append, isPlain_bootstrap, isPlain_functions hcode, hruntime]
  rfl

/-- Where labels are words, they are read off the texts. -/
theorem readLabels (hplain : rows.all Row.isPlain)
    (hwords : ∀ t ∈ rows.filterMap Row.label?, IsWord t) :
    (rows.map Row.text).filterMap readLabel? = rows.filterMap Row.label? := by
  rw [List.filterMap_map]
  refine List.filterMap_congr fun row hrow => ?_
  cases row with
  | remark t =>
    rw [Function.comp_apply, Row.text, Row.label?]
    exact Option.isNone_iff_eq_none.mp (List.all_eq_true.mp hplain _ hrow)
  | line l =>
    rw [Function.comp_apply, Row.text, Row.label?]
    exact readLabel?_line fun t ht => hwords t (List.mem_filterMap.mpr ⟨.line l, hrow, ht⟩)

end Assembly

/-! ## Programs -/

theorem Text.isBlank_of_isDigit {c : Char} (h : c.isDigit) : Text.isBlank c = false := by
  simp only [Char.isDigit, Bool.and_eq_true, decide_eq_true_eq, ge_iff_le, UInt32.le_iff_toNat_le]
    at h
  have hlow : 48 ≤ c.toNat := h.1
  have hhigh : c.toNat ≤ 57 := h.2
  simp only [Text.isBlank, Bool.or_eq_false_iff, Bool.and_eq_false_iff, decide_eq_false_iff_not,
    beq_eq_false_iff_ne]
  omega

/-- The text of a label without a name is a word, and so is that of a name without white space. -/
theorem Names.Spells.isWord {n : Names} {names : List String} {l : Label} (h : n.Spells names l)
    (hplain : ∀ name ∈ names, ∀ c ∈ name.toList, Text.isBlank c = false) :
    Assembly.IsWord (n.textOf l) := by
  have happend : ∀ {s t : String}, Assembly.IsWord s →
      (∀ c ∈ t.toList, Text.isBlank c = false) → Assembly.IsWord (s ++ t) := by
    rintro s t ⟨hne, hhead, hs⟩ ht
    rw [Assembly.IsWord, String.toList_append, List.head?_append_of_ne_nil _ hne]
    exact ⟨by simp [hne], hhead, List.forall_mem_append.mpr ⟨hs, ht⟩⟩
  obtain hblank | ⟨name, hname, hlook⟩ := h
  · rw [textOf_blank hblank]
    refine happend (by decide) fun c hc => Text.isBlank_of_isDigit ?_
    change c ∈ l.index.repr.toList at hc
    rw [Nat.repr_eq_ofList_toDigits, String.toList_ofList] at hc
    exact Nat.isDigit_of_mem_toDigits (by decide) (by decide) hc
  · rw [textOf_of_lookup hlook]
    exact happend (by decide) (hplain name hname)

namespace Typed.Program

variable {p : Program} {k : Nat}

def listing (p : Program) (registers : Nat) : Build (List Assembly.Row) := do
  let c ← p.compile
  let codes ← c.chunks.select registers
  let functions ← allocateAll codes registers
  Assembly.listing c.chunks.data functions registers

theorem assemble_eq (p : Program) (k : Nat) :
    p.assemble k = List.map Assembly.Row.text <$> p.listing k := by
  simp [assemble, Chunks.assemble, listing, Assembly.program]

/-- A listing has the labels of the chunks with their texts, those of global registers and buffers,
and those that the machine provides. -/
theorem listing_labels {s₀ s' : Session} {rows : List Assembly.Row}
    (h : p.listing k s₀ = .ok rows s')
    (hids : (Lowering.ids (Decl.listThroughout p.decls)).Nodup) (hp : p.Distinct)
    (hnames : (p.decls.map Decl.name).Nodup) :
    rows.all Assembly.Row.isPlain ∧
    ∃ labels names, p.Labels labels names ∧ (rows.filterMap Assembly.Row.label?).Perm
      (Assembly.fixedLabels ++
        (labels.map names.textOf ++ Assembly.provided.map ("_" ++ ·))) := by
  unfold listing at h
  obtain ⟨c, s, hc, h⟩ := bind_ok.mp h
  obtain ⟨codes, s₁, hselect, h⟩ := bind_ok.mp h
  obtain ⟨as, s₂, halloc, hrows⟩ := bind_ok.mp h
  obtain ⟨_, s₃, hcheck, hchosen⟩ := bind_ok.mp hselect
  obtain ⟨-, -, rfl⟩ := Code.checkRegisters_ok hcheck
  obtain ⟨hle, hcodes⟩ := labels_selectAll k
    (fun chunk hchunk => (compile_drawn hc hids hp.functions chunk hchunk).2) hchosen
  obtain ⟨hle', has⟩ := labels_allocateAll halloc
  have hlabels := (compile_labels hc hids hp hnames).append
    (Names.supplies_nil (Names.le_trans hle hle'))
  rw [List.append_nil] at hlabels
  refine ⟨Assembly.isPlain_listing hrows, c.chunks.labels, s₂.names, hlabels, ?_⟩
  refine (Assembly.labels_listing hrows).trans ?_
  have hfunctions : as.flatMap (·.code.labels) =
      c.chunks.code.flatMap fun c => [c.frame.label] ++ c.labels := by
    rw [List.flatMap_def, has, hcodes, List.flatMap_def]
    rfl
  have hperm := List.flatMap_append_perm c.chunks.code (fun c => [c.frame.label])
    (fun c => c.labels)
  rw [← hfunctions, ← List.map_eq_flatMap] at hperm
  have hall : (c.chunks.data.map (·.label) ++ as.flatMap (·.code.labels)).Perm
      c.chunks.labels := by
    rw [Chunks.labels, List.append_assoc]
    exact hperm.symm.append_left _
  exact ((hall.map _).append_right _).append_left _

/-- Labels with these texts are distinct from those that are fixed. -/
theorem Labels.ne_fixed {labels : List Label} {names : Names} (h : p.Labels labels names)
    {l : Label} (hl : l ∈ labels) {t : String} (ht : t ∈ Assembly.fixedLabels) :
    t ≠ names.textOf l := by
  -- they start with other letters
  have hfirst : ∀ u ∈ Assembly.fixedLabels, u.toList.head? ≠ some 'L' ∧
      u.toList.head? ≠ some '_' := by decide
  rintro rfl
  obtain hblank | ⟨name, -, hlook⟩ := h.spells l hl
  · refine (hfirst _ ht).1 ?_
    rw [Names.textOf_blank hblank, String.toList_append]
    rfl
  · refine (hfirst _ ht).2 ?_
    rw [Names.textOf_of_lookup hlook, String.toList_append]
    rfl

/-- The texts of labels differ from those that the machine provides exactly if no name at top level
is one of those. -/
theorem Labels.disjoint_iff {labels : List Label} {names : Names} (h : p.Labels labels names) :
    (∀ a ∈ labels.map names.textOf, ∀ b ∈ Assembly.provided.map ("_" ++ ·), a ≠ b) ↔
      ∀ name ∈ p.defined, name ∉ Assembly.provided := by
  constructor
  · intro hdisj name hname hprov
    obtain ⟨l, hl, hlook⟩ := h.defined name hname
    exact hdisj _ (List.mem_map_of_mem hl) _ (List.mem_map_of_mem hprov)
      (Names.textOf_of_lookup hlook)
  · intro hfree a ha b hb heq
    obtain ⟨l, hl, rfl⟩ := List.mem_map.mp ha
    obtain ⟨q, hq, rfl⟩ := List.mem_map.mp hb
    obtain hblank | ⟨name, hname, hlook⟩ := h.spells l hl
    · rw [Names.textOf_blank hblank] at heq
      exact Names.blank_ne_named _ _ heq
    · rw [Names.textOf_of_lookup hlook, String.append_right_inj] at heq
      exact hfree name hname (heq ▸ hq)

/-- In the assembly of a program whose nodes, declarations and names at top level are different, no
label stands on two lines, exactly if the program defines nothing at top level that the machine
provides.  Where the names that it defines have no white space, the labels are what the lines start
with. -/
theorem labels_nodup_iff {lines : List String} {s : Session}
    (hids : (Lowering.ids (Decl.listThroughout p.decls)).Nodup) (hp : p.Distinct)
    (hnames : (p.decls.map Decl.name).Nodup) (h : p.assemble k {} = .ok lines s) :
    ∃ rows, p.listing k {} = .ok rows s ∧ lines = rows.map Assembly.Row.text ∧
      ((rows.filterMap Assembly.Row.label?).Nodup ↔
        ∀ name ∈ p.defined, name ∉ Assembly.provided) ∧
      ((∀ name ∈ p.defined, ∀ c ∈ name.toList, Text.isBlank c = false) →
        lines.filterMap Assembly.readLabel? = rows.filterMap Assembly.Row.label?) := by
  rw [assemble_eq, map_eq_pure_bind] at h
  obtain ⟨rows, s', hrows, hpure⟩ := bind_ok.mp h
  obtain ⟨rfl, rfl⟩ := pure_ok.mp hpure
  obtain ⟨hplain, labels, names, hl, hperm⟩ := listing_labels hrows hids hp hnames
  refine ⟨rows, hrows, rfl, ?_, fun hblank => Assembly.readLabels hplain fun t ht => ?_⟩
  · have htexts : (labels.map names.textOf).Nodup :=
      hl.nodup.map_on fun l hm l' hm' heq => (hl.spells l hm).inj (hl.spells l' hm') heq
    rw [hperm.nodup_iff, List.nodup_append, List.nodup_append, hl.disjoint_iff]
    constructor
    · exact fun hnd => hnd.2.1.2.2
    · intro hfree
      refine ⟨by decide, ⟨htexts, by decide, hfree⟩, fun t ht u hu => ?_⟩
      rcases List.mem_append.mp hu with hu | hu
      · obtain ⟨l, hm, rfl⟩ := List.mem_map.mp hu
        exact hl.ne_fixed hm ht
      · have hapart : ∀ t ∈ Assembly.fixedLabels, ∀ u ∈ Assembly.provided.map ("_" ++ ·),
            t ≠ u := by
          decide
        exact hapart t ht u hu
  · have hfixed : ∀ t ∈ Assembly.fixedLabels, Assembly.IsWord t := by decide
    have hprov : ∀ t ∈ Assembly.provided.map ("_" ++ ·), Assembly.IsWord t := by decide
    rcases List.mem_append.mp (hperm.mem_iff.mp ht) with ht | ht
    · exact hfixed t ht
    · rcases List.mem_append.mp ht with ht | ht
      · obtain ⟨l, hm, rfl⟩ := List.mem_map.mp ht
        exact (hl.spells l hm).isWord hblank
      · exact hprov t ht

/-- A variable, a literal, a branch and a function inside another one, which calls `putc`. -/
def tally (putc : Decl) : Program where
  decls := [
    .var ⟨⟨1⟩, "count", .int, {}⟩,
    putc,
    .fn ⟨⟨0⟩, "main", [], .int, {}⟩ (.scope (.value 0)
      (.block (.value 1) [
        .cond ⟨⟨20⟩, {}⟩ (.name (.place 2) ⟨1⟩)
          [.assign ⟨⟨21⟩, {}⟩ (.name (.place 3) ⟨1⟩) (.atom (.value 4) (.int 0))] [],
        .eval ⟨⟨22⟩, {}⟩ (.call (.value 5) ⟨4⟩ [.atom ⟨⟨6⟩, .ptr .char, false, {}⟩ (.str "hi")])])
      [.fn ⟨⟨4⟩, "first", [⟨⟨5⟩, "text", .ptr .char⟩], .int, {}⟩
        (.call (.value 7) ⟨2⟩ [.deref ⟨⟨8⟩, .char, true, {}⟩
          (.name ⟨⟨9⟩, .ptr .char, true, {}⟩ ⟨5⟩)])])]

/-- `putc` without its body. -/
def putcHead : Head := ⟨⟨2⟩, "putc", [⟨⟨3⟩, "c", .int⟩], .int, {}⟩

/-- With `putc` left to the machine, every label stands on one line. -/
theorem labels_nodup_tally :
    (Lowering.ids (Decl.listThroughout (tally (.foreign putcHead)).decls)).Nodup ∧
      (tally (.foreign putcHead)).Distinct ∧
      ((tally (.foreign putcHead)).decls.map Decl.name).Nodup ∧
      ∃ rows s, (tally (.foreign putcHead)).listing 3 {} = .ok rows s ∧
        (rows.filterMap Assembly.Row.label?).Nodup ∧
        (rows.map Assembly.Row.text).filterMap Assembly.readLabel? =
          rows.filterMap Assembly.Row.label? := by
  have hids : (Lowering.ids (Decl.listThroughout (tally (.foreign putcHead)).decls)).Nodup := by
    decide
  have hp : (tally (.foreign putcHead)).Distinct :=
    ⟨⟨⟨by decide +kernel, by decide +kernel⟩, by decide +kernel⟩, by decide +kernel⟩
  have hnames : ((tally (.foreign putcHead)).decls.map Decl.name).Nodup := by decide
  have hrun : ∃ lines s, (tally (.foreign putcHead)).assemble 3 {} = .ok lines s := by
    decide +kernel
  obtain ⟨lines, s, h⟩ := hrun
  obtain ⟨rows, hrows, rfl, hiff, hread⟩ := labels_nodup_iff hids hp hnames h
  have hplain : ∀ name ∈ (tally (.foreign putcHead)).defined,
      name.toList.all (Text.isBlank · = false) := by decide
  refine ⟨hids, hp, hnames, rows, s, hrows, hiff.mpr (by decide), hread fun name hname c hc => ?_⟩
  exact of_decide_eq_true (List.all_eq_true.mp (hplain name hname) c hc)

/-- A `putc` of its own puts the label of `putc` on two lines. -/
theorem labels_not_nodup_tally :
    ∃ rows s, (tally (.fn putcHead (.name ⟨⟨10⟩, .int, true, {}⟩ ⟨3⟩))).listing 3 {} = .ok rows s ∧
      (rows.filterMap Assembly.Row.label?).count "_putc" = 2 ∧
      ¬ (rows.filterMap Assembly.Row.label?).Nodup := by
  have hrun : ∃ rows s,
      (tally (.fn putcHead (.name ⟨⟨10⟩, .int, true, {}⟩ ⟨3⟩))).listing 3 {} = .ok rows s ∧
        (rows.filterMap Assembly.Row.label?).count "_putc" = 2 := by
    decide +kernel
  obtain ⟨rows, s, hrows, htwice⟩ := hrun
  refine ⟨rows, s, hrows, htwice, fun hnd => ?_⟩
  have honce := List.nodup_iff_count_le_one.mp hnd "_putc"
  omega

end Typed.Program

end MmixBackend
