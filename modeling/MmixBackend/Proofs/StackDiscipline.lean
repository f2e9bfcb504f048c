import MmixBackend.Proofs.Compilation
import MmixBackend.Proofs.Moments

/-!
# The discipline of the stack

The frames of the functions that run lie one below the other without a gap: the lowest function on
the stack has its frame at the start of the stack, each other one has it where the frame of its
caller ends, and SP is where the frame of the function on top ends.  This holds between any two
motions of any run, whatever the code is.

Since the functions that wait are not touched, a function that returns finds its caller as it was
when it made the call, and SP too; the return stores the result at SP and nothing else.
-/

namespace MmixBackend.Machine

variable {image : Image} {callDepth : Nat} {entry : String} {m m' : Moment}

/-! ## The order of frames -/

/-- Where the frame of a function ends, as an exact number. -/
def Task.floor (t : Task) : Int :=
  t.activation.savedSp.toInt - t.activation.body.chunk.frame.size.toInt

/-- The frames on the stack are in order, and there are not too many. -/
structure Moment.Disciplined (callDepth : Nat) (m : Moment) : Prop where
  nonempty : m.stack ≠ []
  length : m.stack.length ≤ max 1 callDepth
  bottom : ∀ t ∈ m.stack.getLast?, t.activation.savedSp = stackStart
  frames : m.stack.IsChain fun t below => t.activation.savedSp.toInt = below.floor
  sp : ∀ t ∈ m.stack.head?, m.world.sp.toInt = t.floor

/-- Each function has its place on the stack written down. -/
def Moment.Leveled (m : Moment) : Prop :=
  ∀ t below, t :: below <:+ m.stack → t.activation.level = below.length + 1

theorem enter_ok {w w' : World} {body : Body} {level : Nat} {a : Activation}
    (h : enter w body level = .ok (w', a)) :
    a = entered body w.sp level ∧ w'.sp.toInt = w.sp.toInt - body.chunk.frame.size.toInt := by
  obtain ⟨sp, hsp, h⟩ := bind_eq_ok h
  cases h
  exact ⟨rfl, Word.toInt_checkedSub hsp⟩

theorem Moment.Disciplined.top {w w' : World} {t t' : Task} {rest : List Task}
    (h : Disciplined callDepth ⟨w, t :: rest⟩) (hbody : t'.activation.body = t.activation.body)
    (hfp : t'.activation.savedSp = t.activation.savedSp) (hsp : w'.sp = w.sp) :
    Disciplined callDepth ⟨w', t' :: rest⟩ where
  nonempty := List.cons_ne_nil _ _
  length := h.length
  bottom := by
    have hbottom := h.bottom
    cases rest with
    | nil => simpa [hfp] using hbottom
    | cons c cs => simpa using hbottom
  frames := by
    have hframes := h.frames
    cases rest with
    | nil => exact .singleton _
    | cons c cs => simpa [hfp] using hframes
  sp := by
    have hs := h.sp
    simpa [Task.floor, hbody, hfp, hsp] using hs

/-- A motion keeps the frames in order. -/
theorem Moment.Disciplined.moves (h : m.Disciplined callDepth) (hm : Moves image callDepth m m') :
    m'.Disciplined callDepth := by
  cases hm with
  | on hsp => exact h.top rfl rfl hsp
  | provided hsp => exact h.top rfl rfl hsp
  | @enters w w' a b rest _ _ body _ henter hdepth =>
    obtain ⟨rfl, hsp⟩ := enter_ok henter
    refine ⟨List.cons_ne_nil _ _, ?_, ?_, .cons_cons (h.sp _ rfl) h.frames, ?_⟩
    · simp only [List.length_cons]
      omega
    · simpa using h.bottom
    · rintro _ ⟨⟩
      exact hsp
  | @returns w t c cs v _ =>
    -- what is below the function that ends is a stack in order by itself
    have hbelow : Disciplined callDepth
        ⟨{ w with sp := t.activation.savedSp }, c :: cs⟩ := by
      refine ⟨List.cons_ne_nil _ _, Nat.le_of_succ_le h.length, ?_,
        (List.isChain_cons_cons.mp h.frames).2, ?_⟩
      · simpa using h.bottom
      · rintro _ ⟨⟩
        exact (List.isChain_cons_cons.mp h.frames).1
    exact hbelow.top rfl rfl rfl

/-- A function on the stack after a motion was there before, over the same functions, or it is on
top and comes on the stack now. -/
theorem Moment.Moves.origin {t : Task} {below : List Task} (hm : Moves image callDepth m m')
    (h : t :: below <:+ m'.stack) :
    (∃ t₀, t₀ :: below <:+ m.stack ∧ t.activation.body = t₀.activation.body ∧
      t.activation.savedSp = t₀.activation.savedSp ∧ t.activation.level = t₀.activation.level) ∨
    m'.stack = t :: below ∧ ∃ body fp, t = Task.idle (entered body fp (below.length + 1)) := by
  cases hm with
  | on | provided =>
    rcases List.suffix_cons_iff.mp h with heq | hrest
    · cases heq
      exact Or.inl ⟨_, List.suffix_rfl, rfl, rfl, rfl⟩
    · exact Or.inl ⟨t, hrest.trans (List.suffix_cons _ _), rfl, rfl, rfl⟩
  | enters _ henter =>
    rcases List.suffix_cons_iff.mp h with heq | hrest
    · cases heq
      obtain ⟨rfl, -⟩ := enter_ok henter
      exact Or.inr ⟨rfl, _, _, rfl⟩
    · exact Or.inl ⟨t, hrest, rfl, rfl, rfl⟩
  | returns =>
    rcases List.suffix_cons_iff.mp h with heq | hrest
    · cases heq
      exact Or.inl ⟨_, List.suffix_cons _ _, rfl, rfl, rfl⟩
    · exact Or.inl ⟨t, (hrest.trans (List.suffix_cons _ _)).trans (List.suffix_cons _ _), rfl,
        rfl, rfl⟩

theorem Moment.Leveled.moves (h : m.Leveled) (hm : Moves image callDepth m m') : m'.Leveled := by
  intro t below hsuffix
  rcases hm.origin hsuffix with ⟨t₀, ht₀, -, -, hlevel⟩ | ⟨-, body, fp, rfl⟩
  · rw [hlevel]
    exact h t₀ below ht₀
  · rfl

theorem Moment.Reaches.disciplined (h : m.Reaches image callDepth entry m')
    (hm : m.Disciplined callDepth) : m'.Disciplined callDepth := by
  induction h with
  | refl => exact hm
  | tail _ hmove ih => exact ih.moves (moves_of_move hmove)

theorem Moment.Reaches.leveled (h : m.Reaches image callDepth entry m') (hm : m.Leveled) :
    m'.Leveled := by
  induction h with
  | refl => exact hm
  | tail _ hmove ih => exact ih.moves (moves_of_move hmove)

/-! ## Where functions were entered -/

/-- The function came on the stack in a moment before: at its first statement, with nothing but its
frame pointer in a temporary, over the same functions as now. -/
def Moment.Came (image : Image) (callDepth : Nat) (entry : String) (first m : Moment) (t : Task)
    (below : List Task) : Prop :=
  ∃ m₀ level, first.Reaches image callDepth entry m₀ ∧ m₀.Reaches image callDepth entry m ∧
    m₀.stack = Task.idle (entered t.activation.body t.activation.savedSp level) :: below

/-- Every function on the stack was entered with its frame pointer at the SP of its caller. -/
theorem Moment.Reaches.came {first : Moment} {body : Body} {fp : Word} {level : Nat}
    (hfirst : first.stack = [Task.idle (entered body fp level)])
    (h : first.Reaches image callDepth entry m) :
    ∀ t below, t :: below <:+ m.stack → Came image callDepth entry first m t below := by
  induction h with
  | refl =>
    intro t below hsuffix
    rw [hfirst] at hsuffix
    rcases List.suffix_cons_iff.mp hsuffix with heq | hnil
    · cases heq
      exact ⟨first, level, .refl, .refl, hfirst⟩
    · cases List.suffix_nil.mp hnil
  | tail hbefore hmove ih =>
    intro t below hsuffix
    rcases (moves_of_move hmove).origin hsuffix with
      ⟨t₀, ht₀, hbody, hfp, -⟩ | ⟨hstack, b, fp, rfl⟩
    · obtain ⟨m₀, level, hcame, hsince, hstack⟩ := ih t₀ below ht₀
      refine ⟨m₀, level, hcame, hsince.tail hmove, ?_⟩
      rw [hstack, hbody, hfp]
    · exact ⟨_, _, hbefore.tail hmove, .refl, hstack⟩

/-! ## Returns -/

/-- From one moment to another while more than `n` functions run. -/
def Moment.ReachesAbove (image : Image) (callDepth : Nat) (entry : String) (n : Nat) :
    Moment → Moment → Prop :=
  Relation.ReflTransGen fun m m' =>
    m.move image callDepth entry = .goes m' ∧ n < m'.stack.length

theorem Moment.ReachesAbove.reaches {n : Nat} (h : m.ReachesAbove image callDepth entry n m') :
    m.Reaches image callDepth entry m' := by
  induction h with
  | refl => exact .refl
  | tail _ hmove ih => exact ih.tail hmove.1

/-- Functions below the one on top are not touched. -/
theorem Moment.Moves.suffix {base : List Task} (hm : Moves image callDepth m m')
    (hbase : base <:+ m.stack) (hlt : base.length < m.stack.length)
    (hlt' : base.length < m'.stack.length) : base <:+ m'.stack := by
  -- `base` is not the whole stack, before and after
  have hrest : ∀ {t : Task} {rest : List Task}, base <:+ t :: rest →
      base.length < (t :: rest).length → base <:+ rest := by
    intro t rest h hne
    rcases List.suffix_cons_iff.mp h with rfl | h
    · exact absurd hne (Nat.lt_irrefl _)
    · exact h
  cases hm with
  | on | provided => exact (hrest hbase hlt).trans (List.suffix_cons _ _)
  | enters => exact hbase.trans (List.suffix_cons _ _)
  | returns =>
    have hcs := hrest (hrest hbase hlt) hlt'
    exact hcs.trans (List.suffix_cons _ _)

theorem Moment.ReachesAbove.suffix {base : List Task}
    (h : m.ReachesAbove image callDepth entry base.length m') (hbase : base <:+ m.stack)
    (hlt : base.length < m.stack.length) : base <:+ m'.stack ∧ base.length < m'.stack.length := by
  induction h with
  | refl => exact ⟨hbase, hlt⟩
  | tail _ hmove ih => exact ⟨(moves_of_move hmove.1).suffix ih.1 ih.2 hmove.2, hmove.2⟩

/-- A motion takes at most one function off the stack. -/
theorem Moment.Moves.length_le (hm : Moves image callDepth m m') :
    m.stack.length ≤ m'.stack.length + 1 := by
  cases hm with
  | on => exact Nat.le_succ _
  | provided => exact Nat.le_succ _
  | enters => exact Nat.le_succ_of_le (Nat.le_succ _)
  | returns => exact Nat.le_refl _

/-- The motion after which no function runs above those that wait is a return to them. -/
theorem Moment.Moves.back {base : List Task} (hm : Moves image callDepth m m')
    (hbase : base <:+ m.stack) (hlt : base.length < m.stack.length)
    (hback : m'.stack.length ≤ base.length) :
    ∃ t c cs v, m.stack = t :: base ∧ base = c :: cs ∧
      m'.stack = { c with result := some v } :: cs ∧
      m'.world = { m.world with
        sp := t.activation.savedSp, memory := m.world.memory.store t.activation.savedSp v } := by
  -- one function runs above them, since a motion takes one off the stack
  obtain ⟨above, habove⟩ := hbase
  have hlength : above.length + base.length = m.stack.length := by
    rw [← habove, List.length_append]
  have hshort := hm.length_le
  obtain ⟨t, rfl⟩ := List.length_eq_one_iff.mp (show above.length = 1 by omega)
  rw [List.singleton_append] at habove
  cases hm with
  | on | provided | enters =>
    simp only [List.length_cons] at hlength hback
    omega
  | returns =>
    cases habove
    exact ⟨_, _, _, _, rfl, rfl, rfl, rfl⟩

/-- What a call comes back to: the caller as it was, with the result, SP as it was, and one more
word stored, at SP. -/
def Moment.Resumed (before last back : Moment) : Prop :=
  ∃ caller rest v, before.stack = caller :: rest ∧
    back.stack = { caller with result := some v } :: rest ∧
    back.world = { last.world with
      sp := before.world.sp, memory := last.world.memory.store before.world.sp v }

/-- When a function returns, its caller and SP are as they were when it was called. -/
theorem Moment.Disciplined.resumed {m₁ m₂ m₃ : Moment} (hm : m.Disciplined callDepth)
    (hcall : m.move image callDepth entry = .goes m₁)
    (hpush : m₁.stack.length = m.stack.length + 1)
    (hinside : m₁.ReachesAbove image callDepth entry m.stack.length m₂)
    (hreturn : m₂.move image callDepth entry = .goes m₃)
    (hpop : m₃.stack.length = m.stack.length) : m.Resumed m₂ m₃ := by
  have hmoves := moves_of_move hcall
  have hbase : m.stack <:+ m₁.stack := by
    cases hmoves with
    | on | provided => exact absurd hpush (Nat.ne_of_lt (Nat.lt_succ_self _))
    | enters => exact List.suffix_cons _ _
    | returns =>
      simp only [List.length_cons] at hpush
      omega
  obtain ⟨hbelow, hlt⟩ := hinside.suffix hbase (by omega)
  obtain ⟨t, c, cs, v, habove, hstack, hback, hworld⟩ :=
    (moves_of_move hreturn).back hbelow hlt (Nat.le_of_eq hpop)
  have hsp : t.activation.savedSp = m.world.sp := by
    have hframes := (hinside.reaches.disciplined (hm.moves hmoves)).frames
    rw [habove, hstack] at hframes
    have hfloor := (List.isChain_cons_cons.mp hframes).1
    have hcaller := hm.sp c (by rw [hstack]; rfl)
    exact Int64.toInt_inj.mp (hfloor.trans hcaller.symm)
  exact ⟨c, cs, v, hstack, hback, hsp ▸ hworld⟩

/-! ## Runs -/

theorem initial_moment {names : Names} {chunks : Chunks} {input : List UInt8} {first : State}
    (h : initial names chunks entry input = .ok (image, first)) (callDepth : Nat) :
    first.moment.Disciplined callDepth ∧ first.moment.Leveled ∧
      ∃ body, first.moment.stack = [Task.idle (entered body stackStart 1)] := by
  rw [initial_eq] at h
  split at h
  · cases h
  · split at h
    · cases h
    · next body _ =>
      split at h
      · cases h
      · next sp hsp =>
        cases h
        refine ⟨⟨List.cons_ne_nil _ _, Nat.le_max_left _ _, ?_, .singleton _, ?_⟩, ?_, body, rfl⟩
        · rintro _ ⟨⟩
          rfl
        · rintro _ ⟨⟩
          exact Word.toInt_checkedSub hsp
        · intro t below hsuffix
          rcases List.suffix_cons_iff.mp hsuffix with heq | hnil
          · cases heq
            rfl
          · cases List.suffix_nil.mp hnil

/-- Each step of a run is made of motions. -/
theorem Moment.Leveled.reaches_after {n : Nat} :
    ∀ {s s' : State}, s.moment.Leveled → after image callDepth n (.running s) = .running s' →
      s.moment.Reaches image callDepth entry s'.moment := by
  induction n with
  | zero =>
    intro s s' _ h
    cases h
    exact .refl
  | succ n ih =>
    intro s s' hs h
    obtain ⟨s₁, hadv, h⟩ := exists_of_after_succ h
    have hlevel : s.top.level = s.callers.length + 1 := by
      have htop := hs _ _ List.suffix_rfl
      rwa [List.length_map] at htop
    have hsettles : (s.moment.move image callDepth entry).Settles image callDepth entry
        (advance image callDepth s).motion := advance_settles hlevel
    rw [hadv] at hsettles
    have hreach := hsettles.reaches rfl rfl
    exact hreach.trans (ih (hreach.leveled hs) h)

/-- Whatever code runs, the stack is in order between any two motions, and so between any two steps:
frames lie one below the other, functions were entered with their frame pointer, and a function that
returns leaves its caller and SP as they were and stores its result at SP only. -/
theorem stack_disciplined {names : Names} {chunks : Chunks} {input : List UInt8} {first : State}
    (hfirst : initial names chunks entry input = .ok (image, first)) (callDepth : Nat) :
    (∀ n s, after image callDepth n (.running first) = .running s →
      first.moment.Reaches image callDepth entry s.moment) ∧
    ∀ m, first.moment.Reaches image callDepth entry m →
      m.Disciplined callDepth ∧
      (∀ t below, t :: below <:+ m.stack →
        Moment.Came image callDepth entry first.moment m t below) ∧
      ∀ m₁ m₂ m₃, m.move image callDepth entry = .goes m₁ →
        m₁.stack.length = m.stack.length + 1 →
        m₁.ReachesAbove image callDepth entry m.stack.length m₂ →
        m₂.move image callDepth entry = .goes m₃ → m₃.stack.length = m.stack.length →
        m.Resumed m₂ m₃ := by
  obtain ⟨hdisciplined, hleveled, body, hstack⟩ := initial_moment hfirst callDepth
  refine ⟨fun n s h => hleveled.reaches_after h, fun m hm => ?_⟩
  have hm' := hm.disciplined hdisciplined
  exact ⟨hm', hm.came hstack, fun m₁ m₂ m₃ => hm'.resumed⟩

/-- Where a motion leads can be found out by making it. -/
instance Motion.decidableExists (q : Motion) (P : Moment → Prop) [DecidablePred P] :
    Decidable (∃ m, q = .goes m ∧ P m) :=
  match q with
  | .goes m => decidable_of_iff (P m)
      ⟨fun h => ⟨m, rfl, h⟩, fun ⟨_, hm, h⟩ => Motion.goes.inj hm ▸ h⟩
  | .halted .. | .faulted _ => isFalse fun ⟨_, hm, _⟩ => nomatch hm

/-- A function that calls another one, which takes a step of its own before it returns. -/
def calling : Chunks where
  code := [
    { name := "main", frame := ⟨⟨0⟩, 0, 0, 8, 24, ⟨0⟩, ⟨1⟩⟩, entry := ⟨2⟩, exit := ⟨3⟩,
      stmts := [.move (.temp ⟨1⟩) (.call ⟨1⟩ [0] [.temp ⟨0⟩]), .jump ⟨3⟩] },
    { name := "f", frame := ⟨⟨1⟩, 0, 8, 0, 24, ⟨2⟩, ⟨3⟩⟩, entry := ⟨4⟩, exit := ⟨5⟩,
      stmts := [.move (.temp ⟨3⟩) (.const 7), .jump ⟨5⟩] }]

theorem calling_disciplined :
    ∃ start : Image × State,
      initial { temps := 4, labels := #[some "_main", some "_f", none, none, none, none] } calling
        "_main" [] = .ok start ∧
      ∃ m₁, start.2.moment.move start.1 2 "_main" = .goes m₁ ∧
        ∃ m₂, m₁.move start.1 2 "_main" = .goes m₂ ∧
          ∃ m₃, m₂.move start.1 2 "_main" = .goes m₃ ∧ m₂.stack.length = 2 ∧
            m₃.stack.length = 1 ∧ m₂.Disciplined 2 ∧ start.2.moment.Resumed m₂ m₃ := by
  have hrun : ∃ start : Image × State,
      initial { temps := 4, labels := #[some "_main", some "_f", none, none, none, none] } calling
        "_main" [] = .ok start ∧
      ∃ m₁, start.2.moment.move start.1 2 "_main" = .goes m₁ ∧
        ∃ m₂, m₁.move start.1 2 "_main" = .goes m₂ ∧
          ∃ m₃, m₂.move start.1 2 "_main" = .goes m₃ ∧ start.2.moment.stack.length = 1 ∧
            m₁.stack.length = 2 ∧ m₂.stack.length = 2 ∧ m₃.stack.length = 1 := by
    decide +kernel
  obtain ⟨start, hfirst, m₁, h₁, m₂, h₂, m₃, h₃, hl, hl₁, hl₂, hl₃⟩ := hrun
  obtain ⟨-, hall⟩ := stack_disciplined hfirst 2
  have hinside : m₁.ReachesAbove start.1 2 "_main" start.2.moment.stack.length m₂ :=
    .single ⟨h₂, by omega⟩
  obtain ⟨-, -, hresumed⟩ := hall _ .refl
  obtain ⟨hm₂, -, -⟩ := hall m₂ (.head h₁ (.single h₂))
  exact ⟨start, hfirst, m₁, h₁, m₂, h₂, m₃, h₃, hl₂, hl₃, hm₂,
    hresumed m₁ m₂ m₃ h₁ (by omega) hinside h₃ (by omega)⟩

end MmixBackend.Machine
