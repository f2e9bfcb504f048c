import Mathlib.Algebra.Group.Int.Defs
import Mathlib.Algebra.Group.Nat.Defs
import Mathlib.Data.List.Basic
import Mathlib.Logic.Function.Basic
import MmixBackend.Word

/-!
# Memory by octets

The memory of the processor holds an octet at every address.  Eight octets whose addresses differ in
the lowest three bits only form an octa, which holds a word with its highest octet first; a word is
loaded from, and stored in, the octa that its address lies in.

Words in different octas do not touch each other, and what is written octet by octet touches no
octa that it does not reach.
-/

namespace MmixBackend

/-- The number of the octa that an address lies in. -/
def Word.octa (a : Word) : Int := a.toInt / 8

/-- Addresses that are eight or more apart lie in different octas, also where they wrap around. -/
theorem Word.octa_add_ne {e : Word} (a : Word) (h : 8 ≤ e.toInt.natAbs) : (a + e).octa ≠ a.octa := by
  have hle := Int64.le_toInt a
  have hlt := Int64.toInt_lt a
  have hlow := Int64.le_toInt e
  have hhigh := Int64.toInt_lt e
  have hmin := Int64.toInt_minValue
  unfold Word.octa
  rw [Int64.toInt_add, Int.bmod_def]
  split <;> omega

/-- An octet of a word, the highest first. -/
def Word.octet (v : Word) (i : Nat) : UInt8 := UInt8.ofNat (v.toUInt64.toNat / 256 ^ (7 - i))

namespace Mmix

/-- Memory as the octets at all addresses. -/
abbrev Octets := Word → UInt8

namespace Octets

variable (o : Octets) (a b v : Word) (x : UInt8) (xs : List UInt8)

def word : Word :=
  Int64.ofNat ((List.range 8).foldl
    (fun n (i : Nat) => n * 256 + (o (Int64.ofInt (8 * a.octa + i))).toNat) 0)

/-- Memory after a word was stored in the octa of an address. -/
def storeWord : Octets := fun b =>
  if b.octa = a.octa then v.octet (b.toInt % 8).toNat else o b

/-- Memory after octets were stored one after another from an address. -/
def write (o : Octets) (a : Word) : List UInt8 → Octets
  | [] => o
  | x :: xs => write (Function.update o a x) (a + 1) xs

/-! ## Words -/

theorem toInt_ofInt_octa {i : Nat} (hi : i < 8) :
    (Int64.ofInt (8 * a.octa + i)).toInt = 8 * a.octa + i := by
  have hle := Int64.le_toInt a
  have hlt := Int64.toInt_lt a
  have hmin := Int64.toInt_minValue
  unfold Word.octa
  exact Int64.toInt_ofInt_of_le (by omega) (by omega)

/-- The highest octets of a word add up to what is left of it without the others. -/
theorem foldl_octet_range {k : Nat} (hk : k ≤ 8) :
    (List.range k).foldl (fun n i => n * 256 + (v.octet i).toNat) 0 =
      v.toUInt64.toNat / 256 ^ (8 - k) := by
  induction k with
  | zero => exact (Nat.div_eq_of_lt v.toUInt64.toNat_lt).symm
  | succ k ih =>
    have hpow : 256 ^ (8 - k) = 256 ^ (7 - k) * 256 := by
      rw [← Nat.pow_succ, show (7 - k).succ = 8 - k by omega]
    rw [List.range_succ, List.foldl_append, ih (by omega), hpow, ← Nat.div_div_eq_div_mul,
      List.foldl_cons, List.foldl_nil, Word.octet, UInt8.toNat_ofNat',
      show 8 - (k + 1) = 7 - k by omega]
    exact Nat.div_add_mod' _ 256

theorem foldl_octet :
    (List.range 8).foldl (fun n i => n * 256 + (v.octet i).toNat) 0 = v.toUInt64.toNat := by
  rw [foldl_octet_range v (Nat.le_refl 8), Nat.sub_self, Nat.pow_zero, Nat.div_one]

/-- The word in an octa is that of its eight octets. -/
theorem word_congr {o o' : Octets} (h : ∀ b : Word, b.octa = a.octa → o' b = o b) :
    o'.word a = o.word a := by
  refine congrArg Int64.ofNat (List.foldl_ext _ _ 0 fun n i hi => ?_)
  have hlt := List.mem_range.mp hi
  have haddr := toInt_ofInt_octa a hlt
  rw [h _ (by rw [Word.octa, haddr]; omega)]

/-- A word is found where it was stored, and nothing else changes. -/
theorem word_storeWord :
    (o.storeWord a v).word b = if b.octa = a.octa then v else o.word b := by
  split
  · next hb =>
    have hoctets : (o.storeWord a v).word b =
        Int64.ofNat ((List.range 8).foldl (fun n i => n * 256 + (v.octet i).toNat) 0) := by
      refine congrArg Int64.ofNat (List.foldl_ext _ _ 0 fun n i hi => ?_)
      have hlt := List.mem_range.mp hi
      have haddr := toInt_ofInt_octa b hlt
      rw [storeWord, if_pos (by rw [Word.octa, haddr, ← hb]; omega), haddr,
        show (8 * b.octa + (i : Int)) % 8 = i by omega, Int.toNat_natCast]
    rw [hoctets, foldl_octet]
    exact Int64.toBitVec_inj.mp (by simp [Int64.ofNat])
  · next hb =>
    refine word_congr b fun c hc => ?_
    rw [storeWord, if_neg (hc ▸ hb)]

theorem word_storeWord_self : (o.storeWord a v).word a = v := by
  rw [word_storeWord, if_pos rfl]

theorem word_storeWord_of_ne {a b : Word} (h : b.octa ≠ a.octa) :
    (o.storeWord a v).word b = o.word b := by
  rw [word_storeWord, if_neg h]

theorem storeWord_of_ne {a b : Word} (h : b.octa ≠ a.octa) : o.storeWord a v b = o b := if_neg h

theorem storeWord_zero : o.storeWord a 0 a = 0 := by
  rw [storeWord, if_pos rfl, Word.octet, show (0 : Word).toUInt64.toNat = 0 from rfl, Nat.zero_div]
  rfl

/-! ## Octets -/

theorem word_update {a b : Word} (h : b.octa ≠ a.octa) :
    Octets.word (Function.update o b x) a = o.word a :=
  word_congr a fun _ hc => Function.update_of_ne (fun heq => h (by rw [← heq, hc])) _ _

theorem toInt_add_one {a : Word} (h : a.toInt + 1 < 2 ^ 63) : (a + 1).toInt = a.toInt + 1 := by
  have hle := Int64.le_toInt a
  have hmin := Int64.toInt_minValue
  rw [Int64.toInt_add, show (1 : Word).toInt = 1 from rfl, Int.bmod_eq_of_le] <;> omega

/-- What is written does not reach below its start, nor past its end. -/
theorem write_of_outside {b : Word} (hroom : a.toInt + xs.length < 2 ^ 63)
    (hout : b.toInt < a.toInt ∨ a.toInt + xs.length ≤ b.toInt) : o.write a xs b = o b := by
  induction xs generalizing o a with
  | nil => rfl
  | cons x xs ih =>
    rw [List.length_cons] at hroom hout
    have hnext := toInt_add_one (a := a) (by omega)
    have hne : b ≠ a := by
      rintro rfl
      omega
    rw [write, ih _ _ (by omega) (by omega), Function.update_of_ne hne]

theorem word_write {a b : Word} (hroom : a.toInt + xs.length < 2 ^ 63)
    (hout : b.octa < a.octa ∨ (a.toInt + xs.length + 7) / 8 ≤ b.octa) :
    (o.write a xs).word b = o.word b := by
  refine word_congr b fun c hc => write_of_outside o a xs hroom ?_
  unfold Word.octa at hout hc
  omega

theorem write_cons_self (hroom : a.toInt + xs.length + 1 < 2 ^ 63) :
    o.write a (x :: xs) a = x := by
  have hnext := toInt_add_one (a := a) (by omega)
  rw [write, write_of_outside _ _ xs (by omega) (by omega), Function.update_self]

end Octets

end Mmix

end MmixBackend
