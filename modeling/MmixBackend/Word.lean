/-!
# Machine words

Every value the compiler and the machine compute with is a 64-bit two's complement word.  Two
arithmetics live on it.  The machine's own wraps around and is total.  The arithmetic of sizes,
offsets and addresses has to be exact: it stops with an `Overflow` that names the operation
whenever the exact result is no word.
-/

namespace MmixBackend

/-- A 64-bit two's complement word.  Its ring operations wrap. -/
abbrev Word := Int64

/-- The operation whose exact result did not fit a word. -/
inductive Overflow where
  | add
  | sub
  | mul
  | neg
  deriving DecidableEq, Repr

def Overflow.message : Overflow → String
  | .add => "attempt to add with overflow"
  | .sub => "attempt to subtract with overflow"
  | .mul => "attempt to multiply with overflow"
  | .neg => "attempt to negate with overflow"

namespace Word

/-- Bytes in a word; every scalar value takes one word. -/
def size : Word := 8

/-! ## Exact arithmetic -/

/-- The word with the exact value `n`, or the overflow `cause` when there is none. -/
def exact (cause : Overflow) (n : Int) : Except Overflow Word :=
  if Int64.minValue.toInt ≤ n ∧ n ≤ Int64.maxValue.toInt then .ok (Int64.ofInt n)
  else .error cause

/-- Exact sum.  The wrapped sum is exact when it moved the way its second part points. -/
def checkedAdd (a b : Word) : Except Overflow Word :=
  let s := a + b
  if decide (b < 0) = decide (s < a) then .ok s else .error .add

def checkedSub (a b : Word) : Except Overflow Word :=
  let d := a - b
  if decide (0 < b) = decide (d < a) then .ok d else .error .sub

def checkedMul (a b : Word) : Except Overflow Word := exact .mul (a.toInt * b.toInt)

def checkedNeg (a : Word) : Except Overflow Word := exact .neg (-a.toInt)

/-- An exact result has the value it was asked for. -/
theorem exact_eq_ok_iff {cause : Overflow} {n : Int} {w : Word} :
    exact cause n = .ok w ↔ w.toInt = n := by
  unfold exact
  constructor
  · intro h
    split at h
    · next hn =>
      cases h
      exact Int64.toInt_ofInt_of_le hn.1 (Int.lt_add_one_of_le hn.2)
    · cases h
  · rintro rfl
    rw [if_pos ⟨Int64.le_toInt w, Int64.toInt_le w⟩, Int64.ofInt_toInt]

theorem checkedAdd_eq (a b : Word) : checkedAdd a b = exact .add (a.toInt + b.toInt) := by
  have la := Int64.le_toInt a
  have ha := Int64.toInt_lt a
  have lb := Int64.le_toInt b
  have hb := Int64.toInt_lt b
  have hs : (a + b).toInt = (a.toInt + b.toInt).bmod (2 ^ 64) := Int64.toInt_add a b
  have hmin := Int64.toInt_minValue
  have hmax := Int64.toInt_maxValue
  unfold checkedAdd exact
  simp only [decide_eq_decide, Int64.lt_iff_toInt_lt, Int64.toInt_zero]
  by_cases h : Int64.minValue.toInt ≤ a.toInt + b.toInt ∧
      a.toInt + b.toInt ≤ Int64.maxValue.toInt
  · have hs' : (a + b).toInt = a.toInt + b.toInt := by
      rw [hs, Int.bmod_eq_of_le] <;> omega
    rw [if_pos (by omega), if_pos h, Int64.ofInt_add, Int64.ofInt_toInt, Int64.ofInt_toInt]
  · rw [if_neg h, if_neg]
    rw [Int.bmod_def] at hs
    omega

theorem checkedSub_eq (a b : Word) : checkedSub a b = exact .sub (a.toInt - b.toInt) := by
  have la := Int64.le_toInt a
  have ha := Int64.toInt_lt a
  have lb := Int64.le_toInt b
  have hb := Int64.toInt_lt b
  have hd : (a - b).toInt = (a.toInt - b.toInt).bmod (2 ^ 64) := Int64.toInt_sub a b
  have hmin := Int64.toInt_minValue
  have hmax := Int64.toInt_maxValue
  unfold checkedSub exact
  simp only [decide_eq_decide, Int64.lt_iff_toInt_lt, Int64.toInt_zero]
  by_cases h : Int64.minValue.toInt ≤ a.toInt - b.toInt ∧
      a.toInt - b.toInt ≤ Int64.maxValue.toInt
  · have hd' : (a - b).toInt = a.toInt - b.toInt := by
      rw [hd, Int.bmod_eq_of_le] <;> omega
    rw [if_pos (by omega), if_pos h, Int64.ofInt_sub, Int64.ofInt_toInt, Int64.ofInt_toInt]
  · rw [if_neg h, if_neg]
    rw [Int.bmod_def] at hd
    omega

/-! ## Machine arithmetic -/

def ofBool (b : Bool) : Word := if b then 1 else 0

/-- Quotient and remainder of floored division.  The remainder has the sign of the divisor; by
zero the quotient is 0 and the dividend is left over. -/
def floorDiv (y z : Word) : Word × Word :=
  if z = 0 then (0, y)
  else
    let q := y / z
    let r := y % z
    if r ≠ 0 ∧ decide (r < 0) ≠ decide (z < 0) then (q - 1, r + z) else (q, r)

/-! ## Digits

A word is put together from the four 16-bit digits (wydes) of its magnitude. -/

/-- The magnitude of a word; that of the least word is 2⁶³. -/
def magnitude (v : Word) : Nat := v.toInt.natAbs

/-- The `i`-th wyde of a magnitude, the lowest first. -/
def wyde (n i : Nat) : Nat := n >>> (16 * i) % UInt16.size

/-! ## Text -/

/-- Decimal text with a minus sign below zero. -/
def text (v : Word) : String := toString v.toInt

/-- The two's complement bits in lower-case hexadecimal after `0x`, without leading zeros. -/
def hex (v : Word) : String := "0x" ++ String.ofList (Nat.toDigits 16 v.toUInt64.toNat)

end Word

end MmixBackend
