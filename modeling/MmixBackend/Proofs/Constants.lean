import MmixBackend.Proofs.Emission
import MmixBackend.Proofs.Execution
import MmixBackend.Proofs.Mnemonics

/-!
# Constants in code

A constant is put together in a temporary by abstract code, wherever instructions are selected or a
spill is repaired, and in `$0` by the fixed parts of a function.

Main statement: both ways give the constant, the least word included, from numbers that fit into a
wyde, and they are the same lines of assembly when the temporary is in `$0`.
-/

namespace MmixBackend

/-! ## Lines -/

/-- The lines of a constant for a temporary in `$0` are those for `$0`. -/
theorem Assembly.instrLine_instr {a : Allocation} {t : Temp} (names : Names)
    (h : a.registers[t]? = some 0) (step : ConstantStep) :
    instrLine names a none (step.instr t) = (Mmix.ofConstantStep step).line := by
  have ht : [t].map (a.registers.getD · 0) = [0] := by
    rw [List.map_singleton, Std.ExtTreeMap.getD_eq_getD_getElem?, h]
    rfl
  cases step with
  | set n =>
    have hform : (Op.setLow n).form = .instr .setl [.dst, .fixed (.num n)] := rfl
    rw [ConstantStep.instr, instrLine_oper names none [] hform rfl ht (by simp)]
    rfl
  | add place n =>
    have hform : (Op.increase place n).form = .instr (.ofPlace place) [.dst, .fixed (.num n)] := rfl
    rw [ConstantStep.instr, instrLine_oper names none [] hform ht ht (by simp)]
    rfl
  | negate =>
    have hform : Op.negate.form = .instr .neg [.dst, .fixed (.num 0), .src 0] := rfl
    rw [ConstantStep.instr, instrLine_oper names none [] hform ht ht (by simp)]
    rfl

/-! ## Execution -/

/-- Code without calls is executed one way only. -/
theorem Straight.unique {S : Surroundings} {code : List Instr} {σ σ₁ : Temp → Word} {x x₁ : Chip}
    {none : List (Label × Machine.World)} (h : Straight S code σ x none σ₁ x₁) (hnone : none = []) :
    ∀ {events : List (Label × Machine.World)} {σ₂ : Temp → Word} {x₂ : Chip},
      Straight S code σ x events σ₂ x₂ → events = [] ∧ x₂ = x₁ ∧ σ₂ = σ₁ := by
  induction h with
  | nil =>
    rintro _ _ _ ⟨⟩
    exact ⟨rfl, rfl, rfl⟩
  | act hdoes _ ih =>
    intro events σ₂ x₂ h'
    cases h' with
    | act hdoes' hrest' =>
      cases hdoes.symm.trans hdoes'
      exact ih hnone hrest'
    | call => cases hdoes
  | call => cases hnone

theorem straight_loadConstant_iff {S : Surroundings} {t : Temp} {v : Word} {σ σ' : Temp → Word}
    {x x' : Chip} {events : List (Label × Machine.World)} :
    Straight S (loadConstant t v) σ x events σ' x' ↔ events = [] ∧ x' = x ∧ Sets σ t v σ' := by
  obtain ⟨σ₁, hrun, hset⟩ := Selection.straight_loadConstant (S := S) (x := x) t v σ
  constructor
  · intro h
    obtain ⟨rfl, rfl, rfl⟩ := hrun.unique rfl h
    exact ⟨rfl, rfl, hset⟩
  · rintro ⟨rfl, rfl, hset'⟩
    have hsame : σ' = σ₁ := by
      funext u
      by_cases hu : u = t
      · rw [hu, hset.1, hset'.1]
      · rw [hset.2 u hu, hset'.2 u hu]
    rwa [hsame]

/-! ## Operands -/

/-- The numbers in the steps of a constant are wydes. -/
def ConstantStep.IsWyde : ConstantStep → Prop
  | set n | add _ n => n ≤ 65535
  | negate => True

theorem isWyde_of_mem {v : Word} {step : ConstantStep} (h : step ∈ constantSteps v) :
    step.IsWyde := by
  have hwyde : ∀ m i, Word.wyde m i ≤ 65535 := fun m i => Nat.le_of_lt_succ (Nat.mod_lt _ (by decide))
  have hplace : ∀ m place, step ∈ placeStep m place → step.IsWyde := by
    intro m place hstep
    unfold placeStep at hstep
    simp only at hstep
    split at hstep
    · cases hstep
    · obtain rfl := List.mem_singleton.mp hstep
      exact hwyde m place.index
  simp only [constantSteps, List.mem_cons, List.mem_append] at h
  rcases h with rfl | ((h | h) | h) | h
  · exact hwyde _ 0
  · exact hplace _ _ h
  · exact hplace _ _ h
  · exact hplace _ _ h
  · split at h
    · obtain rfl := List.mem_singleton.mp h
      trivial
    · cases h

/-- Constants are put together exactly, in a temporary and in `$0`, by the same lines. -/
theorem constant_exact (S : Surroundings) (names : Names) (a : Allocation) (t : Temp)
    (label : Option String) (v : Word) :
    (∀ σ x events σ' x', Straight S (loadConstant t v) σ x events σ' x' ↔
      events = [] ∧ x' = x ∧ σ' t = v ∧ ∀ u, u ≠ t → σ' u = σ u) ∧
    (∀ c : Mmix.Computer, c.execs? (Mmix.loadValue label v) = some (c.set 0 v)) ∧
    (∀ i ∈ loadConstant t v, (∃ n ≤ 65535, i = .oper (.setLow n) [] [t] []) ∨
      (∃ place, ∃ n ≤ 65535, i = .oper (.increase place n) [t] [t] []) ∨
      i = .oper .negate [t] [t] []) ∧
    (a.registers[t]? = some 0 → (loadConstant t v).map (Assembly.instrLine names a none) =
      (Mmix.loadValue none v).map (·.line)) ∧
    Mmix.loadValue label v = Mmix.labelled label (Mmix.loadValue none v) := by
  refine ⟨fun σ x events σ' x' => straight_loadConstant_iff, Mmix.Computer.execs?_loadValue label v, ?_,
    fun h => ?_, rfl⟩
  · intro i hi
    obtain ⟨step, hstep, rfl⟩ := List.mem_map.mp hi
    have hwyde := isWyde_of_mem hstep
    cases step with
    | set n => exact Or.inl ⟨n, hwyde, rfl⟩
    | add place n => exact Or.inr (Or.inl ⟨place, n, hwyde, rfl⟩)
    | negate => exact Or.inr (Or.inr rfl)
  · rw [loadConstant, List.map_map]
    show _ = ((constantSteps v).map Mmix.ofConstantStep).map (·.line)
    rw [List.map_map]
    exact List.map_congr_left fun step _ => Assembly.instrLine_instr names h step

/-- The least word is its own magnitude, and is negated all the same. -/
theorem constant_exact_least :
    Assembly.rounded.registers[(⟨1⟩ : Temp)]? = some 0 ∧
      (loadConstant ⟨1⟩ Int64.minValue).map (Assembly.instrLine {} Assembly.rounded none) =
        [⟨none, "SETL", "$0,0"⟩, ⟨none, "INCH", "$0,32768"⟩, ⟨none, "NEG", "$0,0,$0"⟩] := by
  have h : Assembly.rounded.registers[(⟨1⟩ : Temp)]? = some 0 :=
    Std.ExtTreeMap.getElem?_insert_self
  obtain ⟨-, -, -, hlines, -⟩ := constant_exact ⟨fun _ => 0, fun _ _ _ => False, fun _ _ => 0⟩ {}
    Assembly.rounded ⟨1⟩ none Int64.minValue
  refine ⟨h, (hlines h).trans ?_⟩
  decide

end MmixBackend
