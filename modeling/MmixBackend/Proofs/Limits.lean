import MmixBackend.Proofs.StackDiscipline

/-!
# Limits on runs

A run counts its steps and the functions that run at once, each against a limit, and looks at the
limits for nothing else.  So a run under smaller limits goes along with one under larger limits
until a limit stops it: it comes to the same end with the same notes, or one of its limits is its
end and its notes are the first ones of the longer run.

And every run ends.  The loop of the machine makes one motion in a round.  A round with which a
statement goes on after its call counts no step, so the steps that are left do not fall in every
round.  Nor does it help to look at whether the function on top has a result to go on with: a
function that goes on with one and ends leaves another one with its caller.  What falls in such a
round is the number of calls that nothing has gone on from yet.  A round that counts a step makes
one more of them at most, so there are at most twice as many rounds as steps, and one.
-/

namespace MmixBackend.Machine

/-! ## Runs under two limits -/

/-- What a run ends with when one of its limits stops it. -/
def Settings.Stops (settings : Settings) (f : Fault) : Prop :=
  f = .stepLimit settings.stepLimit ∨ f = .callDepth settings.callDepth

section Lockstep

variable {image : Image} {settings settings' : Settings}

/-- Notes are never taken back. -/
theorem suffix_loop :
    ∀ (n : Nat) (notes : List Note) (s : State), notes <:+ (loop image settings n notes s).1 := by
  intro n
  induction n with
  | zero =>
    intro notes s
    unfold loop
    cases s.top.current? <;> exact List.suffix_rfl
  | succ n ih =>
    intro notes s
    unfold loop
    cases s.top.current? with
    | none => exact List.suffix_rfl
    | some stmt =>
      simp only
      have hnew : notes <:+ if settings.traced then
          (step image settings.callDepth s stmt).1 ++ notes else notes := by
        split
        · exact List.suffix_append _ _
        · exact List.suffix_rfl
      cases (step image settings.callDepth s stmt).2 with
      | running s' => exact hnew.trans (ih _ s')
      | halted exit w => exact hnew
      | faulted f => exact hnew

variable (image) in
/-- With more steps to go and a greater limit on calls, the loop does the same and has as many more
steps left at the end, or a limit stops it earlier. -/
theorem loop_of_le (hdepth : settings.callDepth ≤ settings'.callDepth)
    (htraced : settings'.traced = settings.traced) (k : Nat) :
    ∀ (n : Nat) (notes : List Note) (s : State),
      loop image settings' (n + k) notes s =
          ((loop image settings n notes s).1,
            (loop image settings n notes s).2.map fun r => (r.1 + k, r.2)) ∨
        (∃ f, settings.Stops f ∧ (loop image settings n notes s).2 = .error f) ∧
          (loop image settings n notes s).1 <:+ (loop image settings' (n + k) notes s).1 := by
  intro n
  induction n with
  | zero =>
    intro notes s
    cases hcur : s.top.current? with
    | none =>
      refine Or.inl ?_
      unfold loop
      simp only [hcur, Except.map]
    | some stmt =>
      refine Or.inr ?_
      have hzero : loop image settings 0 notes s =
          (notes, .error (.stepLimit settings.stepLimit)) := by
        unfold loop
        simp only [hcur]
      rw [hzero]
      exact ⟨⟨_, Or.inl rfl, rfl⟩, suffix_loop _ _ _⟩
  | succ n ih =>
    intro notes s
    rw [Nat.succ_add]
    unfold loop
    cases s.top.current? with
    | none => exact Or.inl rfl
    | some stmt =>
      simp only [htraced]
      rcases step_of_le hdepth s stmt with hsame | ⟨hfault, hnotes⟩
      · rw [hsame]
        cases (step image settings.callDepth s stmt).2 with
        | running s' => exact ih _ s'
        | halted exit w => exact Or.inl rfl
        | faulted f => exact Or.inl rfl
      · -- the smaller limit on calls stops the run, the greater one may not
        rw [hfault, hnotes]
        refine Or.inr ⟨⟨_, Or.inr rfl, rfl⟩, ?_⟩
        cases (step image settings'.callDepth s stmt).2 with
        | running s' => exact suffix_loop _ _ s'
        | halted exit w => exact List.suffix_rfl
        | faulted f => exact List.suffix_rfl

end Lockstep

section Runs

variable {settings : Settings} {names : Names} {chunks : Chunks} {entry : String}
  {input : List UInt8}

/-- A run under larger limits does the same, or the smaller limits stop the run earlier. -/
theorem runFrom_of_le (settings' : Settings) (hsteps : settings.stepLimit ≤ settings'.stepLimit)
    (hdepth : settings.callDepth ≤ settings'.callDepth)
    (htraced : settings'.traced = settings.traced) :
    runFrom settings' names chunks entry input = runFrom settings names chunks entry input ∨
      (∃ f, settings.Stops f ∧ (runFrom settings names chunks entry input).2 = .error f) ∧
        (runFrom settings names chunks entry input).1 <:+
          (runFrom settings' names chunks entry input).1 := by
  obtain ⟨k, hk⟩ := Nat.exists_eq_add_of_le hsteps
  unfold runFrom
  simp only
  split
  · exact Or.inl rfl
  · next image s note _ =>
    rw [htraced, hk]
    rcases loop_of_le image hdepth htraced k settings.stepLimit
      (if settings.traced then [note] else []) s with hsame | ⟨hstop, hnotes⟩
    · refine Or.inl ?_
      rw [hsame]
      cases loop image settings settings.stepLimit (if settings.traced then [note] else []) s with
      | mk notes x =>
        cases x with
        | error f => rfl
        | ok r => simp only [Except.map, Nat.add_sub_add_right]
    · refine Or.inr ?_
      obtain ⟨f, hf, hend⟩ := hstop
      generalize loop image settings settings.stepLimit
        (if settings.traced then [note] else []) s = short at hend hnotes
      generalize loop image settings' (settings.stepLimit + k)
        (if settings.traced then [note] else []) s = long at hnotes
      obtain ⟨notes, _⟩ := short
      obtain rfl := hend
      obtain ⟨notes', x⟩ := long
      refine ⟨⟨f, hf, rfl⟩, hnotes.trans ?_⟩
      cases x with
      | error f' => exact List.suffix_rfl
      | ok r => exact List.suffix_cons _ _

/-- Keeping notes has no part in the result. -/
theorem run_traced (settings : Settings) (traced : Bool) :
    run { settings with traced } names chunks entry input =
      run settings names chunks entry input := by
  rw [run_eq, run_eq]

/-- Limits only cut runs short.  A run that no limit stops comes to the same end under larger
limits.  Under smaller limits, a run comes to the same end or one of them stops it.  Either way its
notes are the first ones of the run under the larger limits. -/
theorem run_cut_short (settings settings' : Settings)
    (hsteps : settings.stepLimit ≤ settings'.stepLimit)
    (hdepth : settings.callDepth ≤ settings'.callDepth) (names : Names) (chunks : Chunks)
    (entry : String) (input : List UInt8) :
    ((∀ n, run settings names chunks entry input ≠ .error (.stepLimit n)) →
      (∀ n, run settings names chunks entry input ≠ .error (.callDepth n)) →
      run settings' names chunks entry input = run settings names chunks entry input) ∧
    (run settings names chunks entry input = run settings' names chunks entry input ∨
      run settings names chunks entry input = .error (.stepLimit settings.stepLimit) ∨
      run settings names chunks entry input = .error (.callDepth settings.callDepth)) ∧
    (settings'.traced = settings.traced →
      (runFrom settings names chunks entry input).1 <:+
        (runFrom settings' names chunks entry input).1) := by
  have hends : run settings names chunks entry input = run settings' names chunks entry input ∨
      run settings names chunks entry input = .error (.stepLimit settings.stepLimit) ∨
      run settings names chunks entry input = .error (.callDepth settings.callDepth) := by
    rw [← run_traced settings' settings.traced]
    rcases runFrom_of_le { settings' with traced := settings.traced } hsteps hdepth rfl with
      hsame | ⟨⟨_, rfl | rfl, hstop⟩, -⟩
    · exact Or.inl (congrArg Prod.snd hsame).symm
    · exact Or.inr (Or.inl hstop)
    · exact Or.inr (Or.inr hstop)
  refine ⟨fun hlimit hlimit' => ?_, hends, fun htraced => ?_⟩
  · rcases hends with hsame | hstop | hstop
    · exact hsame.symm
    · exact absurd hstop (hlimit _)
    · exact absurd hstop (hlimit' _)
  · rcases runFrom_of_le settings' hsteps hdepth htraced with hsame | ⟨-, hnotes⟩
    · exact hsame ▸ List.suffix_rfl
    · exact hnotes

end Runs

def callingNames : Names :=
  { temps := 4, labels := #[some "_main", some "_f", none, none, none, none] }

/-- Four steps and two functions at once are what the run needs, whatever the limits are. -/
theorem calling_cut_short :
    run { stepLimit := 4, callDepth := 2 } callingNames calling "_main" [] = .ok ⟨7, []⟩ ∧
    run { stepLimit := 90, callDepth := 5 } callingNames calling "_main" [] = .ok ⟨7, []⟩ ∧
    run { stepLimit := 3, callDepth := 2 } callingNames calling "_main" [] =
      .error (.stepLimit 3) := by
  have hends : run { stepLimit := 4, callDepth := 2 } callingNames calling "_main" [] =
      .ok ⟨7, []⟩ := by decide +kernel
  have hlarger := (run_cut_short { stepLimit := 4, callDepth := 2 }
    { stepLimit := 90, callDepth := 5 } (by decide) (by decide) callingNames calling
    "_main" []).1 (by rw [hends]; exact nofun) (by rw [hends]; exact nofun)
  exact ⟨hends, hlarger.trans hends, by decide +kernel⟩

/-! ## Rounds of the loop -/

/-- The machine between two rounds of its loop: where it is, and the steps that are left. -/
structure Round where
  moment : Moment
  remaining : Nat

/-- What a round leads to. -/
inductive Turn where
  | goes (r : Round)
  | ended (x : Except Fault Outcome)

/-- What a motion leads to with so many steps left. -/
def Motion.turn (remaining : Nat) : Motion → Turn
  | .goes m => .goes ⟨m, remaining⟩
  | .halted exit w => .ended (.ok { exit, output := w.output.reverse })
  | .faulted f => .ended (.error f)

/-- One round.  The motion counts as a step, unless the function on top has a result to go on
with. -/
def Round.turn (image : Image) (settings : Settings) (entry : String) (r : Round) : Turn :=
  match r.moment.stack with
  | [] => .ended (.error (.missingEntry entry))
  | t :: _ =>
    match t.activation.current? with
    | none => .ended (.error (.malformed t.activation.name .fellOff))
    | some _ =>
      match t.result, r.remaining with
      | none, 0 => .ended (.error (.stepLimit settings.stepLimit))
      | none, n + 1 => (r.moment.move image settings.callDepth entry).turn n
      | some _, n => (r.moment.move image settings.callDepth entry).turn n

/-- Where so many rounds lead. -/
def rounds (image : Image) (settings : Settings) (entry : String) : Nat → Turn → Turn
  | n + 1, .goes r => rounds image settings entry n (r.turn image settings entry)
  | _, t => t

/-- The function on top has a result to go on with. -/
def Moment.pending (m : Moment) : Bool := m.stack.head?.any (·.result.isSome)

/-- The calls that were made and not gone on from: one for each function that waits, and one more
if the function on top has the result of its call. -/
def Moment.outstanding (m : Moment) : Nat := m.stack.length - 1 + m.pending.toNat

/-! ## What a round uses up -/

section Measure

variable {image : Image} {callDepth : Nat} {settings : Settings} {entry : String} {m m' : Moment}
  {r r' : Round}

@[simp] theorem Moment.pending_cons (w : World) (t : Task) (rest : List Task) :
    Moment.pending ⟨w, t :: rest⟩ = t.result.isSome := rfl

@[simp] theorem Moment.outstanding_cons (w : World) (t : Task) (rest : List Task) :
    Moment.outstanding ⟨w, t :: rest⟩ = rest.length + t.result.isSome.toNat := rfl

/-- A motion that goes on from a call leaves one call less, and any other makes one at most. -/
theorem Moment.Moves.outstanding (h : Moves image callDepth m m') :
    (m.pending = true → m'.outstanding + 1 = m.outstanding) ∧
      m'.outstanding ≤ m.outstanding + 1 := by
  cases h with
  | on =>
    refine ⟨fun hpending => ?_, ?_⟩
    · rw [pending_cons] at hpending
      simp [hpending]
    · rw [outstanding_cons, outstanding_cons]
      exact Nat.le_succ_of_le (Nat.le_add_right _ _)
  | provided | enters => exact ⟨nofun, Nat.le_refl _⟩
  | returns =>
    refine ⟨fun hpending => ?_, ?_⟩
    · rw [pending_cons] at hpending
      simp [hpending]
    · rw [outstanding_cons, outstanding_cons]
      exact Nat.le_succ_of_le (Nat.le_add_right _ _)

/-- A round makes a motion, which counts as a step or goes on from a call. -/
theorem Round.turn_goes (h : r.turn image settings entry = .goes r') :
    r.moment.move image settings.callDepth entry = .goes r'.moment ∧
      (r'.remaining + 1 = r.remaining ∨
        r'.remaining = r.remaining ∧ r.moment.pending = true) := by
  have hmove : ∀ {p : Motion} {n : Nat}, p.turn n = .goes r' →
      p = .goes r'.moment ∧ r'.remaining = n := by
    intro p n hp
    cases p with
    | goes m =>
      cases hp
      exact ⟨rfl, rfl⟩
    | halted => cases hp
    | faulted => cases hp
  unfold turn at h
  split at h
  · cases h
  · next t rest hstack =>
    split at h
    · cases h
    · split at h
      · cases h
      · next n _ hn =>
        obtain ⟨hm, hr⟩ := hmove h
        exact ⟨hm, Or.inl (by rw [hr, hn])⟩
      · next v hv =>
        obtain ⟨hm, hr⟩ := hmove h
        exact ⟨hm, Or.inr ⟨hr, by simp [Moment.pending, hstack, hv]⟩⟩

/-- What bounds the rounds that are left. -/
def Round.weight (r : Round) : Nat := 2 * r.remaining + r.moment.outstanding

/-- A round that counts no step leaves one call less to go on from. -/
theorem Round.turn_decreases (h : r.turn image settings entry = .goes r') :
    r'.remaining + 1 = r.remaining ∨
      r'.remaining = r.remaining ∧ r.moment.pending = true ∧
        r'.moment.outstanding + 1 = r.moment.outstanding := by
  obtain ⟨hmove, hcount⟩ := turn_goes h
  have hout := (Moment.moves_of_move hmove).outstanding
  exact hcount.imp_right fun ⟨hsame, hpending⟩ => ⟨hsame, hpending, hout.1 hpending⟩

theorem Round.turn_weight (h : r.turn image settings entry = .goes r') :
    r'.weight < r.weight := by
  have hmost := (Moment.moves_of_move (turn_goes h).1).outstanding.2
  have hless := turn_decreases h
  unfold weight
  omega

theorem rounds_succ (n : Nat) (r : Round) :
    rounds image settings entry (n + 1) (.goes r) =
      rounds image settings entry n (r.turn image settings entry) := rfl

@[simp] theorem rounds_zero (t : Turn) : rounds image settings entry 0 t = t := by
  cases t <;> rfl

@[simp] theorem rounds_ended (n : Nat) (x : Except Fault Outcome) :
    rounds image settings entry n (.ended x) = .ended x := by
  cases n <;> rfl

theorem rounds_add (m n : Nat) (t : Turn) :
    rounds image settings entry (m + n) t =
      rounds image settings entry n (rounds image settings entry m t) := by
  induction m generalizing t with
  | zero => simp
  | succ m ih =>
    rw [Nat.succ_add]
    cases t with
    | goes r => exact ih _
    | ended x => simp

/-- Every round that leads to another one uses something up. -/
theorem rounds_weight {n : Nat} (h : rounds image settings entry n (.goes r) = .goes r') :
    n + r'.weight ≤ r.weight := by
  induction n generalizing r with
  | zero =>
    cases h
    exact Nat.le_of_eq (Nat.zero_add _)
  | succ n ih =>
    rw [rounds_succ] at h
    cases hturn : r.turn image settings entry with
    | goes r₁ =>
      rw [hturn] at h
      have hrest := ih h
      have hless := Round.turn_weight hturn
      omega
    | ended x =>
      rw [hturn, rounds_ended] at h
      cases h

variable (image settings entry) in
theorem exists_rounds_ended (r : Round) :
    ∃ x, rounds image settings entry (r.weight + 1) (.goes r) = .ended x := by
  cases h : rounds image settings entry (r.weight + 1) (.goes r) with
  | goes r' =>
    have hweight := rounds_weight h
    omega
  | ended x => exact ⟨x, rfl⟩

theorem rounds_unique {m n : Nat} {t : Turn} {x y : Except Fault Outcome}
    (hx : rounds image settings entry m t = .ended x)
    (hy : rounds image settings entry n t = .ended y) : x = y := by
  have hx' : rounds image settings entry (m + n) t = .ended x := by rw [rounds_add, hx, rounds_ended]
  have hy' : rounds image settings entry (m + n) t = .ended y := by
    rw [Nat.add_comm, rounds_add, hy, rounds_ended]
  exact Turn.ended.inj (hx'.symm.trans hy')

end Measure

/-! ## Rounds and runs -/

section Ends

variable {image : Image} {settings : Settings} {entry : String}

/-- Functions that have a result go on with it in rounds that count no step. -/
theorem Motion.Settles.rounds {p q : Motion} (h : p.Settles image settings.callDepth entry q)
    (n : Nat) : ∃ k, rounds image settings entry k (p.turn n) = q.turn n := by
  induction h with
  | done p => exact ⟨0, rounds_zero _⟩
  | @resume w a v rest p _ ih =>
    obtain ⟨k, hk⟩ := ih
    refine ⟨k + 1, ?_⟩
    have hturn : Round.turn image settings entry ⟨⟨w, ⟨a, some v⟩ :: rest⟩, n⟩ =
        (Moment.move image settings.callDepth entry ⟨w, ⟨a, some v⟩ :: rest⟩).turn n := by
      simp only [Round.turn]
      cases hcur : a.current? with
      | none => simp only [Moment.move, hcur, Motion.turn]
      | some st => rfl
    rw [Motion.turn, rounds_succ, hturn]
    exact hk

variable (image settings entry) in
/-- The rounds from a state end as the steps from there do. -/
theorem exists_rounds_conclude (n : Nat) :
    ∀ {s : State}, s.moment.Leveled → ∃ k, rounds image settings entry k (.goes ⟨s.moment, n⟩) =
      .ended (conclude settings.stepLimit (after image settings.callDepth n (.running s))) := by
  induction n with
  | zero =>
    intro s _
    refine ⟨1, ?_⟩
    rw [rounds_succ, rounds_zero, after_zero]
    simp only [Round.turn, State.moment, List.map_cons, Task.idle, conclude]
    cases s.top.current? <;> rfl
  | succ n ih =>
    intro s hs
    have hlevel : s.top.level = s.callers.length + 1 := by
      have htop := hs _ _ List.suffix_rfl
      rwa [List.length_map] at htop
    have hsettles : (s.moment.move image settings.callDepth entry).Settles image
        settings.callDepth entry (advance image settings.callDepth s).motion :=
      advance_settles hlevel
    obtain ⟨k, hk⟩ := hsettles.rounds n
    have hturn : Round.turn image settings entry ⟨s.moment, n + 1⟩ =
        (s.moment.move image settings.callDepth entry).turn n := by
      simp only [Round.turn, State.moment, List.map_cons, Task.idle]
      cases hcur : s.top.current? with
      | none => simp only [Moment.move, hcur, Motion.turn]
      | some st => rfl
    have hfirst : rounds image settings entry (k + 1) (.goes ⟨s.moment, n + 1⟩) =
        (advance image settings.callDepth s).motion.turn n := by
      rw [rounds_succ, hturn, hk]
    rw [after_succ]
    cases hadv : advance image settings.callDepth s with
    | running s₁ =>
      rw [hadv] at hfirst hsettles
      obtain ⟨j, hj⟩ := ih ((hsettles.reaches rfl rfl).leveled hs)
      exact ⟨k + 1 + j, by rw [rounds_add, hfirst]; exact hj⟩
    | halted exit w =>
      rw [hadv] at hfirst
      exact ⟨k + 1, by rw [hfirst, after_halted]; rfl⟩
    | faulted f =>
      rw [hadv] at hfirst
      exact ⟨k + 1, by rw [hfirst, after_faulted]; rfl⟩

/-- Every run ends, on any code: a round counts a step, or it goes on from a call and leaves one call
less to go on from.  So from wherever the loop starts it ends, and from the start of a run it ends
with the result of the run within twice as many rounds as there may be steps, and one. -/
theorem run_ends (settings : Settings) (names : Names) (chunks : Chunks) (entry : String)
    (input : List UInt8) :
    (∀ (image : Image) (r r' : Round), r.turn image settings entry = .goes r' →
      r'.remaining + 1 = r.remaining ∨
        r'.remaining = r.remaining ∧ r.moment.pending = true ∧
          r'.moment.outstanding + 1 = r.moment.outstanding) ∧
    (∀ (image : Image) (r : Round), ∃ x,
      rounds image settings entry (2 * r.remaining + r.moment.outstanding + 1) (.goes r) =
        .ended x) ∧
    match initial names chunks entry input with
    | .error f => run settings names chunks entry input = .error f
    | .ok (image, first) =>
      rounds image settings entry (2 * settings.stepLimit + 1)
        (.goes ⟨first.moment, settings.stepLimit⟩) =
        .ended (run settings names chunks entry input) := by
  refine ⟨fun image r r' h => Round.turn_decreases h,
    fun image r => exists_rounds_ended image settings entry r, ?_⟩
  rw [run_eq]
  cases hinit : initial names chunks entry input with
  | error f => rfl
  | ok start =>
    obtain ⟨image, first⟩ := start
    obtain ⟨-, hleveled, body, hstack⟩ := initial_moment hinit settings.callDepth
    have hweight : Round.weight ⟨first.moment, settings.stepLimit⟩ = 2 * settings.stepLimit := by
      simp [Round.weight, Moment.outstanding, Moment.pending, hstack, Task.idle]
    obtain ⟨x, hx⟩ := exists_rounds_ended image settings entry
      ⟨first.moment, settings.stepLimit⟩
    obtain ⟨k, hk⟩ := exists_rounds_conclude image settings entry settings.stepLimit hleveled
    rw [hweight, rounds_unique hx hk] at hx
    exact hx

end Ends

/-- Where a round leads can be found out by making it. -/
instance Turn.decidableExists (t : Turn) (P : Round → Prop) [DecidablePred P] :
    Decidable (∃ r, t = .goes r ∧ P r) :=
  match t with
  | .goes r => decidable_of_iff (P r)
      ⟨fun h => ⟨r, rfl, h⟩, fun ⟨_, hr, h⟩ => Turn.goes.inj hr ▸ h⟩
  | .ended _ => isFalse fun ⟨_, hr, _⟩ => nomatch hr

/-- Two functions that end with the statement that goes on after their call. -/
def relaying : Chunks where
  code := [
    { name := "main", frame := ⟨⟨0⟩, 0, 0, 8, 24, ⟨0⟩, ⟨0⟩⟩, entry := ⟨2⟩, exit := ⟨3⟩,
      stmts := [.branch (.call ⟨1⟩ [] []) ⟨3⟩ ⟨3⟩] },
    { name := "f", frame := ⟨⟨1⟩, 0, 8, 0, 24, ⟨1⟩, ⟨1⟩⟩, entry := ⟨4⟩, exit := ⟨5⟩,
      stmts := [.branch (.call ⟨6⟩ [] []) ⟨5⟩ ⟨5⟩] }]

def relayingNames : Names :=
  { temps := 2, labels := #[some "_main", some "_f", none, none, none, none, some "_getc"] }

theorem relaying_ends :
    ∃ start : Image × State, initial relayingNames relaying "_main" [] = .ok start ∧
      rounds start.1 { stepLimit := 2 } "_main" 5 (.goes ⟨start.2.moment, 2⟩) =
        .ended (.ok ⟨stackStart, []⟩) := by
  have hinit : ∃ start : Image × State, initial relayingNames relaying "_main" [] = .ok start := by
    decide +kernel
  have hresult : run { stepLimit := 2 } relayingNames relaying "_main" [] =
      .ok ⟨stackStart, []⟩ := by decide +kernel
  obtain ⟨start, hstart⟩ := hinit
  obtain ⟨-, -, hends⟩ := run_ends { stepLimit := 2 } relayingNames relaying "_main" []
  rw [hstart, hresult] at hends
  exact ⟨start, hstart, hends⟩

/-- The steps that are left, and whether the function on top has a result to go on with, need not
decrease: the third round of this run counts no step, and there is a result before it and after
it. -/
theorem relaying_not_decreasing :
    ∃ start : Image × State, initial relayingNames relaying "_main" [] = .ok start ∧
      ∃ r, rounds start.1 { stepLimit := 2 } "_main" 2 (.goes ⟨start.2.moment, 2⟩) = .goes r ∧
        ∃ r', r.turn start.1 { stepLimit := 2 } "_main" = .goes r' ∧
          ¬ Prod.Lex (· < ·) (· < ·) (r'.remaining, r'.moment.pending.toNat)
            (r.remaining, r.moment.pending.toNat) := by
  have hrun : ∃ start : Image × State, initial relayingNames relaying "_main" [] = .ok start ∧
      ∃ r, rounds start.1 { stepLimit := 2 } "_main" 2 (.goes ⟨start.2.moment, 2⟩) = .goes r ∧
        ∃ r', r.turn start.1 { stepLimit := 2 } "_main" = .goes r' ∧
          r'.remaining = r.remaining ∧ r'.moment.pending = r.moment.pending := by
    decide +kernel
  obtain ⟨start, hinit, r, hr, r', hr', hremaining, hpending⟩ := hrun
  refine ⟨start, hinit, r, hr, r', hr', ?_⟩
  rw [hremaining, hpending, Prod.lex_def]
  simp

end MmixBackend.Machine
