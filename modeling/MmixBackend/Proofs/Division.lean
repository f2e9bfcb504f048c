import MmixBackend.Machine.Step
import MmixBackend.Proofs.Lowering

/-!
# Floored division

Division of words rounds toward zero.  Where the remainder has not the sign of the divisor, quotient
and remainder are corrected by one divisor, which rounds down.

Main statement: the correction never overflows, and it gives the floored quotient and its remainder,
but for the least word divided by -1, whose quotient is no word.  So a cast to characters, which is
the remainder by 256, gives an octet.
-/

namespace MmixBackend

open Machine Typed Build

namespace Word

/-- Floored division that stops where its correction overflows. -/
def checkedFloorDiv (y z : Word) : Except Overflow (Word × Word) :=
  if z = 0 then .ok (0, y)
  else
    let q := y / z
    let r := y % z
    if r ≠ 0 ∧ decide (r < 0) ≠ decide (z < 0) then do
      let q ← checkedSub q 1
      let r ← checkedAdd r z
      return (q, r)
    else .ok (q, r)

/-- A quotient and a remainder of floored division. -/
structure Floors (y z q r : Int) : Prop where
  sum : q * z + r = y
  side : 0 ≤ r ∧ r < z ∨ z < r ∧ r ≤ 0

theorem Floors.fdiv {y z q r : Int} (h : Floors y z q r) : y.fdiv z = q := by
  have hsum : r + z * q = y := by
    rw [Int.mul_comm, Int.add_comm]
    exact h.sum
  rcases h.side with hside | hside
  · exact ((Int.fdiv_fmod_unique (by omega)).mpr ⟨hsum, hside⟩).1
  · exact ((Int.fdiv_fmod_unique' (by omega)).mpr ⟨hsum, hside⟩).1

variable {y z : Word}

/-- What rounding toward zero gives, as numbers. -/
theorem truncated (hz : z ≠ 0) (h : ¬ (y = Int64.minValue ∧ z = -1)) :
    (y / z).toInt * z.toInt + (y % z).toInt = y.toInt ∧
      (y % z).toInt.natAbs < z.toInt.natAbs ∧
      (2 ≤ z.toInt.natAbs → (y / z).toInt.natAbs ≤ y.toInt.natAbs / 2) := by
  have hz' : z.toInt ≠ 0 := fun h0 => hz (Int64.toInt_inj.mp h0)
  have hq : (y / z).toInt = y.toInt.tdiv z.toInt := by
    by_cases hy : y = Int64.minValue
    · exact Int64.toInt_div_of_ne_right y z fun hone => h ⟨hy, hone⟩
    · exact Int64.toInt_div_of_ne_left y z hy
  rw [hq, Int64.toInt_mod, Int.natAbs_tmod, Int.natAbs_tdiv]
  refine ⟨?_, Nat.mod_lt _ (Int.natAbs_pos.mpr hz'), fun htwo => Nat.div_le_div_left htwo (by omega)⟩
  rw [Int.add_comm]
  exact Int.tmod_add_tdiv_mul _ _

/-- A remainder that has not the sign of its divisor. -/
def Crosses (y z : Word) : Prop := y % z ≠ 0 ∧ decide (y % z < 0) ≠ decide (z < 0)

theorem crosses_iff : Crosses y z ↔ (y % z).toInt ≠ 0 ∧ ¬ ((y % z).toInt < 0 ↔ z.toInt < 0) := by
  rw [Crosses, Ne, ← Int64.toInt_inj, Ne, decide_eq_decide, Int64.lt_iff_toInt_lt,
    Int64.lt_iff_toInt_lt, Int64.toInt_zero]

/-- The correction is exact: the remainder is not zero, so the divisor is at least two and the
quotient at most half of a word. -/
theorem corrected (hz : z ≠ 0) (h : Crosses y z) :
    (y / z - 1).toInt = (y / z).toInt - 1 ∧ (y % z + z).toInt = (y % z).toInt + z.toInt := by
  obtain ⟨hne, hside⟩ := crosses_iff.mp h
  have hleast : ¬ (y = Int64.minValue ∧ z = -1) := by
    rintro ⟨rfl, rfl⟩
    exact hne rfl
  obtain ⟨-, hlt, hhalf⟩ := truncated hz hleast
  have hylow := Int64.le_toInt y
  have hyhigh := Int64.toInt_lt y
  have hzlow := Int64.le_toInt z
  have hzhigh := Int64.toInt_lt z
  have hmin := Int64.toInt_minValue
  have hone : (1 : Word).toInt = 1 := rfl
  specialize hhalf (by omega)
  constructor
  · rw [Int64.toInt_sub, hone, Int.bmod_eq_of_le] <;> omega
  · rw [Int64.toInt_add, Int.bmod_eq_of_le] <;> omega

theorem checkedFloorDiv_eq (y z : Word) : checkedFloorDiv y z = .ok (floorDiv y z) := by
  unfold checkedFloorDiv floorDiv
  split
  · rfl
  · next hz =>
    simp only
    split
    · next h =>
      obtain ⟨hq, hr⟩ := corrected hz h
      have hsub : checkedSub (y / z) 1 = .ok (y / z - 1) := by
        rw [checkedSub_eq, exact_eq_ok_iff]
        exact hq
      have hadd : checkedAdd (y % z) z = .ok (y % z + z) := by
        rw [checkedAdd_eq, exact_eq_ok_iff]
        exact hr
      rw [hsub, hadd]
      rfl
    · rfl

/-- Where the quotient is a word, the result is that of floored division. -/
theorem floors_floorDiv (hz : z ≠ 0) (h : ¬ (y = Int64.minValue ∧ z = -1)) :
    Floors y.toInt z.toInt (floorDiv y z).1.toInt (floorDiv y z).2.toInt := by
  obtain ⟨hsum, hlt, -⟩ := truncated hz h
  rw [floorDiv, if_neg hz]
  simp only
  split
  · next hc =>
    obtain ⟨hq, hr⟩ := corrected hz hc
    obtain ⟨hne, hside⟩ := crosses_iff.mp hc
    show Floors _ _ (y / z - 1).toInt (y % z + z).toInt
    rw [hq, hr]
    refine ⟨?_, by omega⟩
    rw [Int.sub_mul]
    omega
  · next hc =>
    have hside := mt crosses_iff.mpr hc
    show Floors _ _ (y / z).toInt (y % z).toInt
    exact ⟨hsum, by omega⟩

/-- The remainder by 256 is an octet. -/
theorem mod_octet (y : Word) : 0 ≤ BinOp.mod.eval y 256 ∧ BinOp.mod.eval y 256 ≤ 255 := by
  obtain ⟨-, hside⟩ := floors_floorDiv (y := y) (z := 256) (by decide) (fun h => absurd h.2 (by decide))
  have hz : (256 : Word).toInt = 256 := rfl
  rw [Int64.le_iff_toInt_le, Int64.le_iff_toInt_le, Int64.toInt_zero,
    show (255 : Word).toInt = 255 from rfl]
  show 0 ≤ (floorDiv y 256).2.toInt ∧ (floorDiv y 256).2.toInt ≤ 255
  omega

/-- The code of a cast to characters takes the remainder by 256. -/
theorem lowered_char {scope : Scope} {node : Node} {ty : Ty} {e : Expr} {t t' : Lowered}
    {s s' : Session} {code : Ir.Expr} (hty : ty.isChar = true)
    (h : Lowering.expr scope (.cast node ty e) t s = .ok (code, t') s') :
    ∃ v, code = .binary .mod v (.const 256) := by
  simp only [Lowering.expr, Lowering.keep_ok, stateT_bind_ok, stateT_pure_ok, hty, if_true] at h
  obtain ⟨_, ⟨v, _, _, -, rfl, -, -⟩, -⟩ := h
  exact ⟨v, rfl⟩

/-- Division is floored and never overflows on the way, and characters are octets. -/
theorem floorDiv_floored (y z : Word) :
    checkedFloorDiv y z = .ok (floorDiv y z) ∧
    (z = 0 → floorDiv y z = (0, y)) ∧
    (z ≠ 0 → (floorDiv y z).1 * z + (floorDiv y z).2 = y ∧
      ((floorDiv y z).2 = 0 ∨ 0 < (floorDiv y z).2 ∧ 0 < z ∨ (floorDiv y z).2 < 0 ∧ z < 0) ∧
      (floorDiv y z).2.toInt.natAbs < z.toInt.natAbs ∧
      (y = Int64.minValue ∧ z = -1 → floorDiv y z = (Int64.minValue, 0)) ∧
      (¬ (y = Int64.minValue ∧ z = -1) → (floorDiv y z).1.toInt = y.toInt.fdiv z.toInt)) ∧
    0 ≤ BinOp.mod.eval y 256 ∧ BinOp.mod.eval y 256 ≤ 255 ∧
    ∀ scope node ty e t s code t' s', ty.isChar = true →
      Lowering.expr scope (.cast node ty e) t s = .ok (code, t') s' →
        ∀ image m a result v, eval image m a result code = .ok v → 0 ≤ v ∧ v ≤ 255 := by
  refine ⟨checkedFloorDiv_eq y z, fun hz => if_pos hz, fun hz => ?_, (mod_octet y).1, (mod_octet y).2,
    ?_⟩
  · by_cases hleast : y = Int64.minValue ∧ z = -1
    · obtain ⟨rfl, rfl⟩ := hleast
      exact ⟨rfl, Or.inl rfl, by decide, fun _ => rfl, fun h => absurd ⟨rfl, rfl⟩ h⟩
    · have h := floors_floorDiv hz hleast
      have hside := h.side
      refine ⟨?_, ?_, by omega, fun h => absurd h hleast, fun _ => h.fdiv.symm⟩
      · have hword := congrArg Int64.ofInt h.sum
        simpa only [Int64.ofInt_add, Int64.ofInt_mul, Int64.ofInt_toInt] using hword
      · simp only [← Int64.toInt_inj, Int64.lt_iff_toInt_lt, Int64.toInt_zero]
        omega
  · intro scope node ty e t s code t' s' hty h image m a result v hv
    obtain ⟨x, rfl⟩ := lowered_char hty h
    obtain ⟨l, -, hv⟩ := except_bind_ok.mp hv
    cases hv
    exact mod_octet l

/-- The character for -1. -/
def lastChar : Expr :=
  .cast { id := ⟨1⟩, ty := .char } .char (.atom { id := ⟨0⟩, ty := .int } (.int (-1)))

/-- By zero, by -1, with a remainder of the other sign, and for a character. -/
theorem floorDiv_floored_edges :
    floorDiv 9 0 = (0, 9) ∧ floorDiv Int64.minValue (-1) = (Int64.minValue, 0) ∧
    (floorDiv (-17) 5).1.toInt = Int.fdiv (-17) 5 ∧
    ∃ code t s, Lowering.expr ⟨{}, none⟩ lastChar {} {} = .ok (code, t) s ∧
      ∀ image m a, ∃ v, eval image m a none code = .ok v ∧ 0 ≤ v ∧ v ≤ 255 := by
  have h : Lowering.expr ⟨{}, none⟩ lastChar {} {} = .ok (_, _) _ := rfl
  refine ⟨(floorDiv_floored 9 0).2.1 rfl,
    ((floorDiv_floored Int64.minValue (-1)).2.2.1 (by decide)).2.2.2.1 ⟨rfl, rfl⟩,
    ((floorDiv_floored (-17) 5).2.2.1 (by decide)).2.2.2.2 (by decide), _, _, _, h, ?_⟩
  intro image m a
  exact ⟨_, rfl, (floorDiv_floored 0 0).2.2.2.2.2 _ _ _ _ _ _ _ _ _ rfl h image m a none _ rfl⟩

end Word

end MmixBackend
