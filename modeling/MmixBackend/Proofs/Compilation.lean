import MmixBackend.Compiler
import MmixBackend.Proofs.Linkage

/-!
# Compiled programs mean what their trees mean

A typed program that compiles to intermediate code runs on the machine to a result, for some
limits on steps and calls, exactly when its direct evaluation gives that result for some amount
of fuel.  Calls are resolved by label; when functions can be told apart by their names that is the
same as by declaration, and in general it is not.
-/

namespace MmixBackend

open Typed Build Machine

/-! ## Runs and evaluations from the start of a function -/

section Agree

variable {image : Image} {setting : Setting} {table : Table Label (Frame × Expr)}
  (h : Agree image setting table) {body : Body} {frame : Frame} {e : Expr}
  (hcodes : body.Codes setting.layout setting.names frame e) (fp : Word) (w : World)

include h hcodes

/-- With so much fuel and any limit on calls, the run of the outermost function comes to the end
that its evaluation tells. -/
theorem Agree.ends (fuel callDepth : Nat) :
    Course.Ends ⟨image, callDepth, callDepth < 1 + fuel⟩ fuel
      (.running ⟨w, entered body fp 1, []⟩) (Evaluation.function setting fuel frame fp e w) := by
  have hruns := h.runs (c := ⟨image, callDepth, callDepth < 1 + fuel⟩) rfl fuel 1 id body frame e
    hcodes fuel (Nat.lt_succ_self fuel) [] fp w .value
    (fun v w' => Course.ends_halted _ _ _ _ rfl)
  have hbind : Evaluation.function setting fuel frame fp e w >>= Answer.value =
      Evaluation.function setting fuel frame fp e w := bind_pure _
  rwa [hbind] at hruns

/-- The outermost function halts with a result exactly when its evaluation gives it. -/
theorem Agree.halts_iff (o : Outcome) :
    (∃ settings : Settings, conclude settings.stepLimit
        (after image settings.callDepth settings.stepLimit
          (.running ⟨w, entered body fp 1, []⟩)) = .ok o) ↔
      ∃ fuel, (Evaluation.function setting fuel frame fp e w >>= fun r =>
        Answer.value (⟨r.1, r.2.output.reverse⟩ : Outcome)) = .value o := by
  have hends := h.ends hcodes fp w
  constructor
  · rintro ⟨settings, hs⟩
    obtain ⟨exit, w', hafter, rfl⟩ := conclude_ok.mp hs
    refine ⟨settings.stepLimit, ?_⟩
    rcases hends settings.stepLimit settings.callDepth with ⟨-, k, hk⟩ | hend
    · cases after_unique hafter hk (by simp) (by simp)
    · cases hx : Evaluation.function setting settings.stepLimit frame fp e w with
      | value r =>
        rw [hx] at hend
        obtain ⟨v, w₁⟩ := r
        obtain ⟨k, w₂, hk, hout⟩ := hend
        cases after_unique hafter hk (by simp) (by simp)
        simp [hout]
      | fault f =>
        rw [hx] at hend
        obtain ⟨k, hk⟩ := hend
        cases after_unique hafter hk (by simp) (by simp)
      | unfinished =>
        rw [hx] at hend
        obtain ⟨s, hrun⟩ := hend
        rw [hafter] at hrun
        cases hrun
      | meaningless =>
        rw [hx] at hend
        exact hend.elim
  · rintro ⟨fuel, hfuel⟩
    cases hx : Evaluation.function setting fuel frame fp e w with
    | value r =>
      obtain ⟨v, w₁⟩ := r
      rw [hx] at hfuel
      cases hfuel
      rcases hends fuel (fuel + 1) with ⟨hdeep, -⟩ | hend
      · exact absurd hdeep (by simp only; omega)
      · rw [hx] at hend
        obtain ⟨k, w₂, hk, hout⟩ := hend
        refine ⟨{ stepLimit := k, callDepth := fuel + 1 }, conclude_ok.mpr ⟨v, w₂, hk, ?_⟩⟩
        rw [hout]
    | fault f | unfinished | meaningless =>
      rw [hx] at hfuel
      cases hfuel

end Agree

/-! ## Whole programs -/

variable {c : Compiled} {p : Program} {s₀ s : Session}

theorem Typed.Program.compile_ok (h : p.compile s₀ = .ok c s) :
    ∃ s₁ s₂, p.layout s₀ = .ok c.layout s₁ ∧
      Lowering.functions { layout := c.layout } p.decls {} s₁ = .ok ((), c.code) s₂ ∧
      p.chunks c.layout c.code s₂ = .ok c.chunks s := by
  simp only [Program.compile, Program.lower, bind_ok, pure_ok, Prod.exists] at h
  obtain ⟨layout, s₁, hlayout, code, s₂, ⟨_, _, _, hlower, rfl, rfl⟩, chunks, _, hchunks, rfl,
    rfl⟩ := h
  exact ⟨s₁, _, hlayout, hlower, hchunks⟩

abbrev loadedBodies (chunks : Chunks) : Table Label Body :=
  chunks.code.foldl (fun t c => t.insert c.frame.label (Body.ofChunk c)) ∅

/-- The bodies that the machine loads are those of a compiled program's functions. -/
theorem Typed.Program.compile_linked (h : p.compile s₀ = .ok c s)
    (hids : (Lowering.ids (Decl.listThroughout p.decls)).Nodup) :
    Linked c.layout s.names (loadedBodies c.chunks) (p.bodies c.layout) := by
  obtain ⟨s₁, s₂, hlayout, hlower, hchunks⟩ := Program.compile_ok h
  have hhand := Layouting.layout_handed hlayout
  have hle₁ : s₁.names ≤ s₂.names := (Lowering.functions_lowers hlower).change.names
  have hof := Program.chunksOf hchunks
  have hhand₂ : Layouting.Handed c.layout s₂.names := fun d f hf =>
    Nat.lt_of_lt_of_le (hhand hf) (Names.temps_le hle₁)
  refine linked_bodies hhand₂ hof.names hof.code ?_ ?_
  · exact fun f hf => (((Lowering.functions_lowers hlower).fills hids).bodies f hf).1
  · exact fun l => Or.inl ⟨by simp, by simp⟩

abbrev startWorld (m : Memory) (sp : Word) (input : List UInt8) : World :=
  { memory := m.store stackStart 0, sp, hp := heapStart, input, output := [] }

/-- Where a run starts: data are placed, the entry function is found, and its frame fits. -/
theorem initial_eq (names : Names) (chunks : Chunks) (entry : String) (input : List UInt8) :
    initial names chunks entry input =
      match placeData dataStart ∅ {} chunks.data with
      | .error cause => .error (.overflow cause)
      | .ok (data, m) =>
        match names.lookup entry >>= ((loadedBodies chunks)[·]?) with
        | none => .error (.missingEntry entry)
        | some body =>
          match Word.checkedSub stackStart body.chunk.frame.size with
          | .error cause => .error (.overflow cause)
          | .ok sp => .ok ({ names, bodies := loadedBodies chunks, data },
              ⟨startWorld m sp input, entered body stackStart 1, []⟩) := by
  unfold initial load
  cases placeData dataStart ∅ {} chunks.data with
  | error cause => rfl
  | ok placed =>
    obtain ⟨data, m⟩ := placed
    simp only [Machine.exactly, bind, Except.bind, pure, Except.pure, entryBody]
    cases (names.lookup entry).bind fun l => (loadedBodies chunks)[l]? with
    | none => rfl
    | some body =>
      simp only [Machine.enter, bind, Except.bind, pure, Except.pure]
      cases Word.checkedSub stackStart body.chunk.frame.size with
      | error cause => rfl
      | ok sp => rfl

/-- A compiled program runs to a result exactly when its evaluation gives the result, however calls
are resolved, as long as they reach what is under the labels of functions. -/
theorem Typed.Program.run_ok_iff (h : p.compile s₀ = .ok c s)
    (hids : (Lowering.ids (Decl.listThroughout p.decls)).Nodup) {L : Linkage}
    (hL : L.Resolves s.names c.layout (p.bodies c.layout))
    (hentry : L.entry = (p.byLabel s.names c.layout).entry) (input : List UInt8) (o : Outcome) :
    (∃ settings, Machine.run settings s.names c.chunks "_main" input = .ok o) ↔
      ∃ fuel, p.evaluate s.names c.layout L fuel input = .value o := by
  have hlinked := Program.compile_linked h hids
  obtain ⟨s₁, s₂, -, -, hchunks⟩ := Program.compile_ok h
  have hdata : c.chunks.data = p.data c.layout := (Program.chunksOf hchunks).data
  simp only [run_eq, initial_eq, evaluate, hdata, hentry, byLabel]
  cases placeData dataStart ∅ {} (p.data c.layout) with
  | error cause => simp [bind, Except.bind]
  | ok placed =>
    obtain ⟨data, m⟩ := placed
    cases s.names.lookup "_main" with
    | none => simp [bind, Except.bind]
    | some l =>
      rcases hlinked l with ⟨hbody, htable⟩ | ⟨body, frame, e, hbody, htable, hcodes⟩
      · simp [bind, Except.bind, hbody, htable]
      · simp only [bind, Option.bind, hbody, htable, hcodes.chunk]
        cases Word.checkedSub stackStart frame.size with
        | error cause => simp [Except.bind]
        | ok sp =>
          have hagree : Agree { names := s.names, bodies := loadedBodies c.chunks, data }
              { names := s.names, layout := c.layout, data, linkage := L }
              (p.bodies c.layout) :=
            ⟨rfl, rfl, hlinked, hL⟩
          exact hagree.halts_iff hcodes stackStart (startWorld m sp input) o

/-- In a well-named program the labels of functions tell them apart, until the end of
compilation. -/
theorem Typed.Program.compile_distinct (h : p.compile s₀ = .ok c s) (hw : p.WellNamed) :
    Layouting.Distinct p.tops c.layout s.names := by
  obtain ⟨s₁, s₂, hlayout, hlower, hchunks⟩ := Program.compile_ok h
  have hnames : ((Decl.listRoutines p.decls).map (·.head.name)).Nodup := by
    have hn := hw.names
    rwa [Program.tops, List.map_map] at hn
  have hle : s₁.names ≤ s.names :=
    Names.le_trans (Lowering.functions_lowers hlower).change.names (Program.chunksOf hchunks).names
  exact (Layouting.layout_distinct hlayout hw.ids hnames).mono hle rfl

/-- The machine gives a result, for some limits, exactly when the tree evaluates to it.  Calls go by
label in general, and by declaration in a well-named program. -/
theorem Typed.Program.run_iff_evaluate {p : Program} {s₀ s : Session} {c : Compiled}
    (hids : (Lowering.ids (Decl.listThroughout p.decls)).Nodup)
    (h : p.compile s₀ = .ok c s) (input : List UInt8) (o : Outcome) :
    ((∃ settings, Machine.run settings s.names c.chunks "_main" input = .ok o) ↔
      ∃ fuel, p.evaluate s.names c.layout (p.byLabel s.names c.layout) fuel input = .value o) ∧
    (p.WellNamed →
      ((∃ settings, Machine.run settings s.names c.chunks "_main" input = .ok o) ↔
        ∃ fuel, p.evaluate s.names c.layout (p.byDeclaration s.names c.layout) fuel input =
          .value o)) := by
  refine ⟨run_ok_iff h hids (byLabel_resolves p s.names c.layout) rfl input o, fun hw => ?_⟩
  have hd := compile_distinct h hw
  exact run_ok_iff h hids (byDeclaration_resolves hw hd) (byDeclaration_entry hw hd) input o

/-- A function inside another one that reads a variable of the outer one. -/
def nested : Program where
  decls := [.fn ⟨⟨0⟩, "main", [], .int, {}⟩ (.scope (.value 9)
    (.block (.value 8) [
      .assign ⟨⟨20⟩, {}⟩ (.name (.place 0) ⟨1⟩) (.atom (.value 1) (.int 20)),
      .eval ⟨⟨21⟩, {}⟩ (.call (.value 2) ⟨2⟩ [.atom (.value 3) (.int 22)])])
    [.var ⟨⟨1⟩, "x", .int, {}⟩,
      .fn ⟨⟨2⟩, "add", [⟨⟨3⟩, "n", .int⟩], .int, {}⟩ (.binary (.value 6) .add
        (.name (.place 4) ⟨1⟩) (.name (.place 5) ⟨3⟩))])]

theorem run_nested :
    (Lowering.ids (Decl.listThroughout nested.decls)).Nodup ∧ nested.WellNamed ∧
      ∃ c s, nested.compile {} = .ok c s ∧
        ∃ settings, Machine.run settings s.names c.chunks "_main" [] = .ok ⟨42, []⟩ := by
  have hids : (Lowering.ids (Decl.listThroughout nested.decls)).Nodup := by decide
  have hw : nested.WellNamed := ⟨by decide, by decide, by simp [nested]⟩
  have heval : ∃ c s, nested.compile {} = .ok c s ∧
      nested.evaluate s.names c.layout (nested.byDeclaration s.names c.layout) 100 [] =
        .value ⟨42, []⟩ := by
    decide +kernel
  obtain ⟨c, s, hc, hv⟩ := heval
  exact ⟨hids, hw, c, s, hc, ((Program.run_iff_evaluate hids hc [] ⟨42, []⟩).2 hw).mpr ⟨100, hv⟩⟩

/-- Two functions of one name, and a call that refers to the first. -/
def namesakes : Program where
  decls := [
    .fn ⟨⟨0⟩, "f", [], .int, {}⟩ (.atom (.value 0) (.int 1)),
    .fn ⟨⟨1⟩, "f", [], .int, {}⟩ (.atom (.value 1) (.int 2)),
    .fn ⟨⟨2⟩, "main", [], .int, {}⟩ (.call (.value 2) ⟨0⟩ [])]

/-- Without different names the machine does not give what calls by declaration give. -/
theorem run_namesakes_ne_evaluate :
    (Lowering.ids (Decl.listThroughout namesakes.decls)).Nodup ∧
      (namesakes.heads.map (·.id)).Nodup ∧
      ∃ c s, namesakes.compile {} = .ok c s ∧
        (∃ fuel, namesakes.evaluate s.names c.layout (namesakes.byDeclaration s.names c.layout)
          fuel [] = .value ⟨1, []⟩) ∧
        ¬ ∃ settings, Machine.run settings s.names c.chunks "_main" [] = .ok ⟨1, []⟩ := by
  have hruns : ∃ c s, namesakes.compile {} = .ok c s ∧
      namesakes.evaluate s.names c.layout (namesakes.byDeclaration s.names c.layout) 100 [] =
        .value ⟨1, []⟩ ∧
      Machine.run ⟨100, 100, false⟩ s.names c.chunks "_main" [] = .ok ⟨2, []⟩ := by
    decide +kernel
  obtain ⟨c, s, hc, hv, hrun⟩ := hruns
  refine ⟨by decide, by decide, c, s, hc, ⟨100, hv⟩, ?_⟩
  rintro ⟨settings, hrun'⟩
  cases run_ok_unique hrun hrun'

end MmixBackend
