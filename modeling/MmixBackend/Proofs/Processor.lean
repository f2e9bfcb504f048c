import Mathlib.Algebra.Group.Nat.Defs
import MmixBackend.Machine.Step
import MmixBackend.Target.Selection

/-!
# What the operations compute

Each operation has a template, and the mnemonic in it has a meaning on 64-bit words: sums, products
and wydes wrap around, division is floored and leaves its remainder behind, a comparison gives the
sign of the exact difference, and loads and stores act on the word at the very address.  Jumps and
calls are not operations on words and have no entry here.

The steps of a constant add up to the constant, the least word included.  A comparison that is then
tested gives the truth value of the operator it was selected for.
-/

namespace MmixBackend

open Machine

/-! ## Constants -/

/-- A wyde at a place; the lowest place is zero. -/
def Word.ofWyde (place n : Nat) : Word := Int64.ofNat ((n % UInt16.size) <<< (16 * place))

/-- The content of a register after a step, from what it was before. -/
def ConstantStep.value : ConstantStep → Word → Word
  | set n, _ => Word.ofWyde 0 n
  | add place n, v => v + Word.ofWyde place.index n
  | negate, v => 0 - v

/-- The content of a register after steps. -/
def constantValue (steps : List ConstantStep) (v : Word) : Word :=
  steps.foldl (fun v step => step.value v) v

theorem constantValue_cons (step : ConstantStep) (steps : List ConstantStep) (v : Word) :
    constantValue (step :: steps) v = constantValue steps (step.value v) := rfl

theorem constantValue_append (xs ys : List ConstantStep) (v : Word) :
    constantValue (xs ++ ys) v = constantValue ys (constantValue xs v) := List.foldl_append

theorem Word.ofWyde_zero (place : Nat) : Word.ofWyde place 0 = 0 := by
  simp [Word.ofWyde]

theorem constantValue_placeStep (m : Nat) (place : Place) (v : Word) :
    constantValue (placeStep m place) v = v + Word.ofWyde place.index (Word.wyde m place.index) := by
  unfold placeStep
  by_cases h : Word.wyde m place.index = 0
  · simp [h, constantValue, Word.ofWyde_zero]
  · simp [h, constantValue, ConstantStep.value]

theorem Word.magnitude_lt (v : Word) : Word.magnitude v < 2 ^ 64 := by
  have hle := Int64.le_toInt v
  have hlt := Int64.toInt_lt v
  unfold Word.magnitude
  have hmin := Int64.toInt_minValue
  omega

/-- The magnitude as a word, which for the least word is that word again. -/
theorem Word.ofNat_magnitude (v : Word) :
    Int64.ofNat (Word.magnitude v) = if v < 0 then -v else v := by
  show Int64.ofInt (v.toInt.natAbs : Int) = _
  have hlt : v < 0 ↔ v.toInt < 0 := by rw [Int64.lt_iff_toInt_lt, Int64.toInt_zero]
  split
  · next hv =>
    rw [hlt] at hv
    rw [show (v.toInt.natAbs : Int) = -v.toInt by omega, Int64.ofInt_neg, Int64.ofInt_toInt]
  · next hv =>
    rw [hlt] at hv
    rw [show (v.toInt.natAbs : Int) = v.toInt by omega, Int64.ofInt_toInt]

/-- The wydes of a number at their places add up to it. -/
theorem Word.sum_wydes {m : Nat} (h : m < 2 ^ 64) :
    Word.ofWyde 0 (Word.wyde m 0) + Word.ofWyde 1 (Word.wyde m 1) +
      Word.ofWyde 2 (Word.wyde m 2) + Word.ofWyde 3 (Word.wyde m 3) = Int64.ofNat m := by
  unfold Word.ofWyde Word.wyde
  rw [← Int64.ofNat_add, ← Int64.ofNat_add, ← Int64.ofNat_add]
  have hsum : (m >>> (16 * 0) % UInt16.size % UInt16.size) <<< (16 * 0) +
      (m >>> (16 * 1) % UInt16.size % UInt16.size) <<< (16 * 1) +
      (m >>> (16 * 2) % UInt16.size % UInt16.size) <<< (16 * 2) +
      (m >>> (16 * 3) % UInt16.size % UInt16.size) <<< (16 * 3) = m := by
    simp only [Nat.shiftLeft_eq, Nat.shiftRight_eq_div_pow, UInt16.size]
    omega
  rw [hsum]

/-- The steps of a constant give the constant, whatever was in the register. -/
theorem constantValue_constantSteps (v x : Word) : constantValue (constantSteps v) x = v := by
  have hsum := Word.sum_wydes (Word.magnitude_lt v)
  have hneg : ∀ y, constantValue (if v < 0 then [ConstantStep.negate] else []) y =
      if v < 0 then 0 - y else y := by
    intro y
    split <;> rfl
  simp only [constantSteps, constantValue_cons, constantValue_append, constantValue_placeStep, hneg,
    ConstantStep.value, Place.index, hsum, Word.ofNat_magnitude]
  split
  · simp
  · rfl

/-! ## Operations on words -/

/-- The sign of the exact difference of two words. -/
def Word.order (l r : Word) : Word := Word.ofBool (r < l) - Word.ofBool (l < r)

/-- Does a word pass a test? -/
def Test.holds : Test → Word → Bool
  | zero, v => v == 0
  | nonzero, v => v != 0
  | negative, v => v < 0
  | positive, v => 0 < v
  | nonpositive, v => v ≤ 0
  | nonnegative, v => 0 ≤ v

/-- The value of an operation. -/
def Arith.eval : Arith → Word → Word → Word
  | or, l, r => l ||| r
  | and, l, r => l &&& r
  | add, l, r => l + r
  | sub, l, r => l - r
  | mul, l, r => l * r
  | div, l, r => (Word.floorDiv l r).1

/-- What instructions share apart from the values of temporaries. -/
structure Chip where
  /-- The remainder of the last division. -/
  remainder : Word
  world : World

def Chip.store (x : Chip) (a v : Word) : Chip :=
  { x with world := { x.world with memory := x.world.memory.store a v } }

/-- What an operation gives for the words it reads, and how it leaves the rest; `data` tells where the
data of a name are.  Jumps and calls do not compute. -/
def Op.compute (data : String → Word) : Op → List Word → Chip → Option (List Word × Chip)
  | address name, [], x => some ([data name], x)
  | load, [a], x => some ([x.world.memory.load a], x)
  | loadSum, [a, b], x => some ([x.world.memory.load (a + b)], x)
  | store, [v, a], x => some ([], x.store a v)
  | storeSum, [v, a, b], x => some ([], x.store (a + b) v)
  | copy, [v], x => some ([v], x)
  | arith .div, [l, r], x =>
    some ([(Word.floorDiv l r).1], { x with remainder := (Word.floorDiv l r).2 })
  | arith a, [l, r], x => some ([a.eval l r], x)
  | compare, [l, r], x => some ([Word.order l r], x)
  | test t, [v], x => some ([Word.ofBool (t.holds v)], x)
  | remainder, [], x => some ([x.remainder], x)
  | negate, [v], x => some ([0 - v], x)
  | flip, [v], x => some ([v ^^^ 1], x)
  | setLow n, [], x => some ([Word.ofWyde 0 n], x)
  | increase place n, [v], x => some ([v + Word.ofWyde place.index n], x)
  | storeArg offset, [v], x => some ([], x.store (x.world.sp + offset) v)
  | storeArgSum, [v, o], x => some ([], x.store (x.world.sp + o) v)
  | result, [], x => some ([x.world.memory.load (x.world.sp + 0)], x)
  | _, _, _ => none

namespace Selection

/-- A comparison that is tested gives the truth value of the operator. -/
theorem holds_testOf {op : BinOp} (h : op.isRelational) (l r : Word) :
    Word.ofBool ((testOf op).holds (Word.order l r)) = op.eval l r := by
  have hle : ∀ a b : Word, a ≤ b ↔ ¬ b < a := by
    intro a b
    rw [Int64.le_iff_toInt_le, Int64.lt_iff_toInt_lt]
    omega
  have hcases : l < r ∧ ¬ r < l ∧ (l == r) = false ∨ l = r ∧ ¬ r < l ∨
      r < l ∧ ¬ l < r ∧ (l == r) = false := by
    simp only [beq_eq_false_iff_ne, ne_eq, Int64.lt_iff_toInt_lt, ← Int64.toInt_inj]
    omega
  cases op with
  | eq | ne | lt | gt | le | ge =>
    rcases hcases with ⟨h₁, h₂, h₃⟩ | ⟨rfl, h₂⟩ | ⟨h₁, h₂, h₃⟩ <;>
      simp [testOf, Test.holds, BinOp.eval, Word.order, Word.ofBool, bne, *]
  | or | and | add | sub | mul | div | mod => cases h

end Selection

end MmixBackend
