import MmixBackend.Compiler
import MmixBackend.Proofs.Alike
import MmixBackend.Proofs.Faults

/-!
# Places in the source

Every chunk remembers where its function stands in the source.  Here it is shown that nothing
but the wording of failures depends on it: a chunk and the same chunk with its place blanked
become the same canonical code, the same instructions, registers and lines, and they run alike.

`plain` blanks the place of a chunk, of abstract code, and of what the machine holds of a chunk.
-/

namespace MmixBackend

open Build

/-! ## Canonical code -/

mutual

theorem Ir.Stmt.canonize_alike (loc loc' : Location) :
    ∀ s : Ir.Stmt, Alike Eq (s.canonize loc) (s.canonize loc')
  | .seq ss => Ir.Stmt.canonizeAll_alike loc loc' ss
  | .label _ => alike_refl _
  | .jump _ => alike_refl _
  | .branch c _ _ => (Ir.Expr.canonize_alike loc loc' c).bind_eq fun _ => alike_refl _
  | .eval e => (Ir.Expr.canonize_alike loc loc' e).bind_eq fun _ => alike_refl _
  | .move (.mem addr) src => (alike_refl newTemp).bind_eq fun _ =>
    (Ir.Expr.canonize_alike loc loc' addr).bind_eq fun _ =>
      (alike_refl newTemp).bind_eq fun _ =>
        (Ir.Expr.canonize_alike loc loc' src).bind_eq fun _ => alike_refl _
  | .move (.temp _) src => (alike_refl newTemp).bind_eq fun _ =>
    (Ir.Expr.canonize_alike loc loc' src).bind_eq fun _ => alike_refl _
  | .move (.const _) _ => alike_defect rfl
  | .move (.name _) _ => alike_defect rfl
  | .move (.binary ..) _ => alike_defect rfl
  | .move (.unary ..) _ => alike_defect rfl
  | .move (.call ..) _ => alike_defect rfl
  | .move (.after ..) _ => alike_defect rfl

theorem Ir.Stmt.canonizeAll_alike (loc loc' : Location) :
    ∀ ss : List Ir.Stmt, Alike Eq (Ir.Stmt.canonizeAll loc ss) (Ir.Stmt.canonizeAll loc' ss)
  | [] => alike_refl _
  | s :: ss => (Ir.Stmt.canonize_alike loc loc' s).bind_eq fun _ =>
    (Ir.Stmt.canonizeAll_alike loc loc' ss).bind_eq fun _ => alike_refl _

theorem Ir.Expr.canonize_alike (loc loc' : Location) :
    ∀ e : Ir.Expr, Alike Eq (e.canonize loc) (e.canonize loc')
  | .const _ => alike_refl _
  | .name _ => alike_refl _
  | .temp _ => alike_refl _
  | .binary _ lhs rhs => (alike_refl newTemp).bind_eq fun _ =>
    (Ir.Expr.canonize_alike loc loc' lhs).bind_eq fun _ =>
      (alike_refl newTemp).bind_eq fun _ =>
        (Ir.Expr.canonize_alike loc loc' rhs).bind_eq fun _ => alike_refl _
  | .unary _ e => (Ir.Expr.canonize_alike loc loc' e).bind_eq fun _ => alike_refl _
  | .call _ _ args => (Ir.Expr.canonizeArgs_alike loc loc' args).bind_eq fun _ => alike_refl _
  | .mem addr => (alike_refl newTemp).bind_eq fun _ =>
    (Ir.Expr.canonize_alike loc loc' addr).bind_eq fun _ => alike_refl _
  | .after s e => (Ir.Stmt.canonize_alike loc loc' s).bind_eq fun _ =>
    (Ir.Expr.canonize_alike loc loc' e).bind_eq fun _ => alike_refl _

theorem Ir.Expr.canonizeArgs_alike (loc loc' : Location) :
    ∀ es : List Ir.Expr, Alike Eq (Ir.Expr.canonizeArgs loc es) (Ir.Expr.canonizeArgs loc' es)
  | [] => alike_refl _
  | e :: es => (alike_refl newTemp).bind_eq fun _ =>
    (Ir.Expr.canonize_alike loc loc' e).bind_eq fun _ =>
      (Ir.Expr.canonizeArgs_alike loc loc' es).bind_eq fun _ => alike_refl _

end

/-! ## Instructions -/

namespace Selection

mutual

theorem expr_alike (window : Nat) (loc loc' : Location) :
    ∀ e : Ir.Expr, Alike Eq (expr window loc e) (expr window loc' e)
  | .const _ => alike_refl _
  | .name _ => alike_refl _
  | .temp _ => alike_refl _
  | .mem addr => (expr_alike window loc loc' addr).bind_eq fun _ => alike_refl _
  | .binary _ lhs rhs => (expr_alike window loc loc' lhs).bind_eq fun _ =>
    (expr_alike window loc loc' rhs).bind_eq fun _ => alike_refl _
  | .unary _ e => (expr_alike window loc loc' e).bind_eq fun _ => alike_refl _
  | .call _ offsets args =>
    (arguments_alike window loc loc' offsets args).bind_eq fun _ => alike_refl _
  | .after .. => alike_defect rfl

theorem arguments_alike (window : Nat) (loc loc' : Location) :
    ∀ (offsets : List Word) (es : List Ir.Expr),
      Alike Eq (arguments window loc offsets es) (arguments window loc' offsets es)
  | offset :: offsets, e :: es => by
    refine (expr_alike window loc loc' e).bind_eq fun p => ?_
    -- both ways of storing the argument go on in the same way
    have rest (stored : List Instr) := (arguments_alike window loc loc' offsets es).bind_eq
      fun rest => alike_refl (pure (p.1 ++ stored ++ rest) : Build (List Instr))
    exact alike_ite ((alike_refl (pure _)).bind_eq rest)
      ((alike_refl (constant offset)).bind_eq fun _ => (alike_refl (pure _)).bind_eq rest)
  | [], [] => alike_refl _
  | [], _ :: _ => alike_refl _
  | _ :: _, [] => alike_refl _

end

theorem move_alike (window : Nat) (loc loc' : Location) (dst src : Ir.Expr) :
    Alike Eq (move window loc dst src) (move window loc' dst src) := by
  unfold move
  split
  · exact (expr_alike window loc loc' _).bind_eq fun _ =>
      (expr_alike window loc loc' _).bind_eq fun _ => alike_refl _
  · exact (expr_alike window loc loc' _).bind_eq fun _ =>
      (expr_alike window loc loc' _).bind_eq fun _ => alike_refl _
  · exact (expr_alike window loc loc' _).bind_eq fun _ => alike_refl _
  · exact (expr_alike window loc loc' _).bind_eq fun _ => alike_refl _
  · exact alike_defect rfl

mutual

theorem stmt_alike (window : Nat) (loc loc' : Location) :
    ∀ s : Ir.Stmt, Alike Eq (stmt window loc s) (stmt window loc' s)
  | .move dst src => move_alike window loc loc' dst src
  | .eval e => (expr_alike window loc loc' e).bind_eq fun _ => alike_refl _
  | .branch c _ _ => (expr_alike window loc loc' c).bind_eq fun _ => alike_refl _
  | .jump _ => alike_refl _
  | .label _ => alike_refl _
  | .seq ss => stmts_alike window loc loc' ss

theorem stmts_alike (window : Nat) (loc loc' : Location) :
    ∀ ss : List Ir.Stmt, Alike Eq (stmts window loc ss) (stmts window loc' ss)
  | [] => alike_refl _
  | s :: ss => (stmt_alike window loc loc' s).bind_eq fun _ =>
    (stmts_alike window loc loc' ss).bind_eq fun _ => alike_refl _

end

end Selection

/-- A chunk with its place blanked. -/
def CodeChunk.plain (c : CodeChunk) : CodeChunk := { c with loc := {} }

def Code.plain (c : Code) : Code := { c with loc := {} }

theorem CodeChunk.select_plain (window : Nat) (c : CodeChunk) :
    Alike (fun a b => b = a.plain) (c.select window) (c.plain.select window) :=
  (Selection.stmts_alike window c.loc {} c.stmts).bind_eq fun is =>
    (alike_refl (note (.selected c.name is.length))).bind_eq fun _ => alike_pure rfl

/-! ## Registers -/

def Allocation.plain (a : Allocation) : Allocation := { a with code := a.code.plain }

namespace Code

theorem spill_plain (c : Code) (t : Temp) :
    Alike (fun p q => q = (p.1.plain, p.2)) (c.spill t) (c.plain.spill t) :=
  (alike_refl (exactly c.nextSlot)).bind_eq fun slot =>
    (alike_refl (Spill.instrs { temp := t, fp := c.frame.fp, offset := slot.1 }
      c.instrs)).bind_eq fun _ => alike_pure rfl

theorem spillAll_plain (ts : List Temp) : ∀ (c : Code) (repair : TempSet),
    Alike (fun p q => q = (p.1.plain, p.2)) (c.spillAll repair ts)
      (c.plain.spillAll repair ts) := by
  induction ts with
  | nil =>
    intro c repair
    exact alike_pure rfl
  | cons t ts ih =>
    intro c repair
    refine (c.spill_plain t).bind ?_
    rintro ⟨c', offset, new⟩ _ rfl
    exact (alike_refl (note (.spilled c'.name t offset))).bind_eq fun _ => ih c' _

/-- The rounds of colouring read the instructions, the frame and the slots. -/
theorem allocateRounds_plain (k limit remaining : Nat) :
    ∀ (round : Nat) (c : Code) (repair : TempSet),
      Alike (fun a b => b = a.plain) (allocateRounds k limit remaining round c repair)
        (allocateRounds k limit remaining round c.plain repair) := by
  induction remaining with
  | zero =>
    intro round c repair
    exact alike_throw rfl
  | succ remaining ih =>
    intro round c repair
    refine (alike_refl (note (.settled c.name c.liveness.passes))).bind_eq fun _ => ?_
    refine (alike_refl (note _)).bind_eq fun _ => ?_
    refine alike_ite (alike_pure rfl) ?_
    refine (spillAll_plain _ c repair).bind ?_
    rintro ⟨c', repair'⟩ _ rfl
    exact alike_ite (alike_throw rfl) (ih (round + 1) c' repair')

theorem allocate_plain (k : Nat) (c : Code) :
    Alike (fun a b => b = a.plain) (c.allocate k) (c.plain.allocate k) :=
  (alike_refl (checkRegisters k)).bind_eq fun _ =>
    allocateRounds_plain k _ _ 0 c ∅

end Code

/-! ## Lines -/

namespace Assembly

theorem bodyFrom_plain (names : Names) (a : Allocation) (is : List Instr) :
    ∀ waiting, bodyFrom names a.plain waiting is = bodyFrom names a waiting is := by
  induction is with
  | nil =>
    intro waiting
    rfl
  | cons i is ih =>
    intro waiting
    cases i with
    | label l => simp only [bodyFrom, ih]
    | oper op uses defs jumps | move op dst src => simp only [bodyFrom, ih]; rfl

theorem body_plain (names : Names) (a : Allocation) : body names a.plain = body names a :=
  bodyFrom_plain names a a.code.instrs none

theorem function_plain (names : Names) (a : Allocation) :
    Alike Eq (function names a) (function names a.plain) := by
  refine (alike_refl (exactly (prologue names a.code))).bind_eq fun start => ?_
  have hstored : storeResult (names.textOf a.plain.code.exit) a.plain =
      storeResult (names.textOf a.code.exit) a := rfl
  rw [body_plain, hstored]
  cases body names a with
  | error d => exact alike_defect_bind rfl
  | ok lines =>
    refine (alike_refl (pure lines)).bind_eq fun lines => ?_
    cases storeResult (names.textOf a.code.exit) a with
    | none => exact alike_defect_bind rfl
    | some is => exact alike_refl _

theorem functions_plain (names : Names) (as : List Allocation) :
    Alike Eq (functions names as) (functions names (as.map Allocation.plain)) := by
  induction as with
  | nil => exact alike_refl _
  | cons a as ih =>
    exact (function_plain names a).bind_eq fun _ => ih.bind_eq fun _ => alike_refl _

theorem program_plain (data : List DataChunk) (as : List Allocation) (registers : Nat) :
    Alike Eq (program data as registers) (program data (as.map Allocation.plain) registers) := by
  have hmain (names : Names) :
      (as.map Allocation.plain).any (isMain names) = as.any (isMain names) := List.any_map
  have hrows : Alike Eq (listing data as registers)
      (listing data (as.map Allocation.plain) registers) := by
    refine (alike_refl get).bind_eq fun s => ?_
    simp only [hmain, List.length_map]
    have rest := (functions_plain s.names as).bind_eq fun code => alike_refl (do
      let rows := bootstrap s.names data registers ++ code ++ runtime
      Build.note (.assembled as.length data.length rows.length)
      return rows)
    exact alike_ite (alike_throw_bind rfl) rest
  exact hrows.bind_eq fun _ => alike_refl _

end Assembly

def Chunks.plain (c : Chunks) : Chunks := { c with code := c.code.map CodeChunk.plain }

theorem Chunks.select_plain (c : Chunks) (registers : Nat) :
    Alike (fun a b => b = a.map Code.plain) (c.select registers) (c.plain.select registers) :=
  (alike_refl (checkRegisters registers)).bind_eq fun _ =>
    alike_mapM (CodeChunk.select_plain registers) c.code

/-- The lines of assembly do not tell where the functions stand in the source. -/
theorem Chunks.assemble_plain (c : Chunks) (registers : Nat) :
    Alike Eq (c.assemble registers) (c.plain.assemble registers) := by
  refine (c.select_plain registers).bind ?_
  rintro codes _ rfl
  refine (alike_mapM (h := Code.plain) (k := Allocation.plain)
    (Code.allocate_plain registers) codes).bind ?_
  rintro functions _ rfl
  exact Assembly.program_plain c.data functions registers

theorem CodeChunk.lines_plain (names : Names) (c : CodeChunk) :
    c.plain.lines names = c.lines names := rfl

theorem Chunks.lines_plain (names : Names) (c : Chunks) : c.plain.lines names = c.lines names := by
  show c.data.map _ ++ (c.code.map CodeChunk.plain).flatMap _ = _
  rw [List.flatMap_map]
  rfl

/-! ## Runs -/

namespace Machine

def Body.plain (b : Body) : Body := { b with chunk := b.chunk.plain }

def Activation.plain (a : Activation) : Activation := { a with body := a.body.plain }

def State.plain (s : State) : State :=
  { s with top := s.top.plain, callers := s.callers.map Activation.plain }

def Progress.plain : Progress → Progress
  | .running s => .running s.plain
  | p => p

def Image.plain (i : Image) : Image := { i with bodies := i.bodies.map fun _ b => b.plain }

theorem Image.getElem?_plain (i : Image) (l : Label) :
    i.plain.bodies[l]? = i.bodies[l]?.map Body.plain := Std.ExtTreeMap.getElem?_map

namespace Activation

variable (a : Activation)

theorem temp_plain (t : Temp) : a.plain.temp t = a.temp t := rfl

theorem frame_plain : a.plain.body.chunk.frame = a.body.chunk.frame := rfl

theorem exit_plain : a.plain.body.chunk.exit = a.body.chunk.exit := rfl

theorem targets_plain : a.plain.body.targets = a.body.targets := rfl

theorem savedSp_plain : a.plain.savedSp = a.savedSp := rfl

theorem current?_plain : a.plain.current? = a.current? := rfl

end Activation

variable (image : Image)

theorem evalAll_plain (m : Memory) (a : Activation) (es : List Ir.Expr) :
    evalAll image.plain m a.plain es = evalAll image m a es :=
  @evalAll_congr image image.plain a a.plain rfl rfl rfl rfl m es

theorem exec_plain (w : World) (a : Activation) (result : Option Word) (s : Ir.Stmt) :
    exec image.plain w a.plain result s =
      (exec image w a result s).map fun r => (r.1, r.2.1.plain, r.2.2) := by
  rw [@exec_congr image image.plain a a.plain rfl rfl rfl rfl]
  cases h : exec image w a result s with
  | error f => rfl
  | ok r =>
    obtain ⟨ts, _, ha, -⟩ := exec_same h
    simp only [Except.map, ha]
    rfl

theorem settle_plain (callers : List Activation) :
    ∀ (notes : List Note) (w : World) (a : Activation) (target : Option Label),
      settle image.plain notes w a.plain target (callers.map Activation.plain) =
        ((settle image notes w a target callers).1,
          (settle image notes w a target callers).2.plain) := by
  -- the callers get fewer with every function that ends
  induction callers with
  | nil =>
    intro notes w a target
    cases target with
    | none => rfl
    | some l =>
      simp only [List.map_nil, settle, a.exit_plain, a.frame_plain, a.temp_plain,
        a.targets_plain]
      by_cases hl : l = a.body.chunk.exit
      · simp only [hl, ↓reduceIte]
        cases a.temp a.body.chunk.frame.rv <;> rfl
      · simp only [hl, ↓reduceIte]
        cases a.body.targets[l]? <;> rfl
  | cons c cs ih =>
    intro notes w a target
    cases target with
    | none => rfl
    | some l =>
      simp only [List.map_cons, settle, a.exit_plain, a.frame_plain, a.temp_plain,
        a.targets_plain, a.savedSp_plain, c.current?_plain, exec_plain]
      by_cases hl : l = a.body.chunk.exit
      · simp only [hl, ↓reduceIte]
        cases a.temp a.body.chunk.frame.rv with
        | error f => rfl
        | ok v =>
          cases c.current? with
          | none => rfl
          | some st =>
            simp only
            cases exec image _ c (some v) st with
            | error f => rfl
            | ok r => exact ih _ r.1 r.2.1 r.2.2
      · simp only [hl, ↓reduceIte]
        cases a.body.targets[l]? <;> rfl

theorem enter_plain (w : World) (b : Body) (level : Nat) :
    enter w b.plain level = (enter w b level).map fun r => (r.1, r.2.plain) := by
  have hframe : b.plain.chunk.frame = b.chunk.frame := rfl
  simp only [enter, hframe]
  cases Word.checkedSub w.sp b.chunk.frame.size <;> rfl

theorem invoke_plain (callDepth : Nat) (s : State) (st : Ir.Stmt) (call : Call) (m : Memory) :
    invoke image.plain callDepth s.plain st call m =
      ((invoke image callDepth s st call m).1, (invoke image callDepth s st call m).2.plain) := by
  have hworld : s.plain.world = s.world := rfl
  have hlevel : s.plain.top.level = s.top.level := rfl
  have htop : s.plain.top = s.top.plain := rfl
  have hnames : image.plain.names = image.names := rfl
  simp only [invoke, Image.getElem?_plain, hworld, hlevel, hnames]
  cases image.bodies[call.callee]? with
  | some body =>
    simp only [Option.map_some, enter_plain]
    cases enter { s.world with memory := m } body (s.top.level + 1) with
    | error cause => rfl
    | ok r =>
      simp only [Except.map]
      by_cases hdepth : s.top.level < callDepth
      · simp only [hdepth, ↓reduceIte]
        rfl
      · simp only [hdepth, ↓reduceIte]
        rfl
  | none =>
    simp only [Option.map_none]
    cases builtin { s.world with memory := m } (image.names.textOf call.callee) with
    | error f => rfl
    | ok r =>
      simp only [htop, exec_plain]
      cases exec image _ s.top (some r.2) st with
      | error f => rfl
      | ok q => exact settle_plain image s.callers _ q.1 q.2.1 q.2.2

/-- A step reads the code, the frames and the names of the running functions. -/
theorem step_plain (callDepth : Nat) (s : State) (st : Ir.Stmt) :
    step image.plain callDepth s.plain st =
      ((step image callDepth s st).1, (step image callDepth s st).2.plain) := by
  have hworld : s.plain.world = s.world := rfl
  have htop : s.plain.top = s.top.plain := rfl
  simp only [step, hworld, htop, evalAll_plain, exec_plain]
  cases Call.inStmt st with
  | some call =>
    simp only
    cases evalAll image s.world.memory s.top call.args with
    | error f => rfl
    | ok vs =>
      simp only
      cases storeArgs s.world.sp s.world.memory call.offsets vs with
      | error cause => rfl
      | ok m => exact invoke_plain image callDepth s st call m
  | none =>
    simp only
    cases exec image s.world s.top none st with
    | error f => rfl
    | ok q => exact settle_plain image s.callers [] q.1 q.2.1 q.2.2

theorem State.current?_plain (s : State) : s.plain.top.current? = s.top.current? := rfl

theorem loop_plain (settings : Settings) (remaining : Nat) : ∀ (notes : List Note) (s : State),
    loop image.plain settings remaining notes s.plain =
      loop image settings remaining notes s := by
  induction remaining with
  | zero =>
    intro notes s
    unfold loop
    rw [s.current?_plain]
    cases s.top.current? <;> rfl
  | succ remaining ih =>
    intro notes s
    unfold loop
    rw [s.current?_plain]
    cases s.top.current? with
    | none => rfl
    | some st =>
      simp only [step_plain]
      cases (step image settings.callDepth s st).2 with
      | running s' => exact ih _ s'
      | halted exit w => rfl
      | faulted f => rfl

/-! ### Loading -/

theorem insert_plain (bodies : Table Label Body) (c : CodeChunk) :
    (bodies.map fun _ b => b.plain).insert c.frame.label (Body.ofChunk c.plain) =
      (bodies.insert c.frame.label (Body.ofChunk c)).map fun _ b => b.plain := by
  apply Std.ExtTreeMap.ext_getElem?
  intro l
  rw [Std.ExtTreeMap.getElem?_map, Std.ExtTreeMap.getElem?_insert,
    Std.ExtTreeMap.getElem?_insert, Std.ExtTreeMap.getElem?_map]
  split <;> rfl

theorem foldl_insert_plain (cs : List CodeChunk) : ∀ bodies : Table Label Body,
    (cs.map CodeChunk.plain).foldl (fun t c => t.insert c.frame.label (Body.ofChunk c))
        (bodies.map fun _ b => b.plain) =
      (cs.foldl (fun t c => t.insert c.frame.label (Body.ofChunk c)) bodies).map
        fun _ b => b.plain := by
  induction cs with
  | nil =>
    intro bodies
    rfl
  | cons c cs ih =>
    intro bodies
    rw [List.map_cons, List.foldl_cons, List.foldl_cons, ← ih, ← insert_plain]
    rfl

theorem load_plain (names : Names) (c : Chunks) :
    load names c.plain = (load names c).map fun r => (r.1.plain, r.2) := by
  have hempty : (∅ : Table Label Body) = (∅ : Table Label Body).map fun _ b => b.plain := rfl
  have hcode := foldl_insert_plain c.code ∅
  rw [← hempty] at hcode
  simp only [load, Chunks.plain, hcode]
  cases placeData dataStart ∅ {} c.data <;> rfl

theorem entryBody_plain (entry : String) :
    entryBody image.plain entry = (entryBody image entry).map Body.plain := by
  have hnames : image.plain.names = image.names := rfl
  simp only [entryBody, hnames]
  cases image.names.lookup entry with
  | none => rfl
  | some l =>
    simp only [Option.bind_eq_bind, Option.bind_some, Image.getElem?_plain]
    cases image.bodies[l]? <;> rfl

/-- A run does not tell where the functions stand in the source. -/
theorem runFrom_plain (settings : Settings) (names : Names) (c : Chunks) (entry : String)
    (input : List UInt8) :
    runFrom settings names c.plain entry input = runFrom settings names c entry input := by
  simp only [runFrom, load_plain]
  cases load names c with
  | error cause => rfl
  | ok r =>
    simp only [Except.map, exactly, bind, Except.bind, entryBody_plain]
    cases entryBody r.1 entry with
    | error f => rfl
    | ok body =>
      simp only [enter_plain]
      cases enter _ body 1 with
      | error cause => rfl
      | ok q =>
        have hloop (notes : List Note) :
            loop r.1.plain settings settings.stepLimit notes ⟨q.1, q.2.plain, []⟩ =
              loop r.1 settings settings.stepLimit notes ⟨q.1, q.2, []⟩ :=
          loop_plain r.1 settings settings.stepLimit notes ⟨q.1, q.2, []⟩
        simp only [Except.map, pure, Except.pure, hloop]
        rfl

theorem run_plain (settings : Settings) (names : Names) (c : Chunks) (entry : String)
    (input : List UInt8) :
    run settings names c.plain entry input = run settings names c entry input :=
  congrArg Prod.snd (runFrom_plain settings names c entry input)

end Machine

end MmixBackend
