import Mathlib.Algebra.Order.BigOperators.Group.List
import Mathlib.Algebra.Ring.Int.Defs
import MmixBackend.Proofs.Pass

/-!
# Sizes of types

Every size is a number of whole words, and none is negative when no array length is.  The size of a
record is the sum of the sizes of its components.
-/

namespace MmixBackend

open Typed Build

namespace Typed

/-- The size of a type that has one. -/
def Ty.bytes (ty : Ty) : Int :=
  match ty.size with
  | .ok n => n.toInt
  | .error _ => 0

theorem Ty.bytes_eq {ty : Ty} {n : Word} (h : ty.size = .ok n) : ty.bytes = n.toInt := by
  simp only [Ty.bytes, h]

theorem Ty.bytes_nonneg_of_size {ty : Ty} (h : ∀ n, ty.size = .ok n → Word.size ≤ n) :
    0 ≤ ty.bytes := by
  cases hn : ty.size with
  | error e => simp [Ty.bytes, hn]
  | ok n =>
    have hle : (8 : Int) ≤ n.toInt := Int64.le_iff_toInt_le.mp (h n hn)
    rw [Ty.bytes_eq hn]
    omega

theorem Ty.sum_bytes_nonneg {α : Type} {f : α → Ty} {as : List α}
    (h : ∀ a ∈ as, ∀ n, (f a).size = .ok n → Word.size ≤ n) :
    0 ≤ (as.map fun a => (f a).bytes).sum := by
  refine List.sum_nonneg fun x hx => ?_
  obtain ⟨a, ha, rfl⟩ := List.mem_map.mp hx
  exact Ty.bytes_nonneg_of_size (h a ha)

theorem Ty.map_bytes_congr {α β : Type} {f : α → Ty} {g : β → Ty} {as : List α} {bs : List β}
    (h : (as.map fun a => (f a).size) = bs.map fun b => (g b).size) :
    (as.map fun a => (f a).bytes) = bs.map fun b => (g b).bytes := by
  have hbytes := congrArg (List.map fun size : Except Overflow Word =>
    match size with
    | .ok n => n.toInt
    | .error _ => 0) h
  rw [List.map_map, List.map_map] at hbytes
  exact hbytes

theorem Ty.sum_bytes_congr {α β : Type} {f : α → Ty} {g : β → Ty} {as : List α} {bs : List β}
    (h : (as.map fun a => (f a).size) = bs.map fun b => (g b).size) :
    (as.map fun a => (f a).bytes).sum = (bs.map fun b => (g b).bytes).sum :=
  congrArg List.sum (Ty.map_bytes_congr h)

/-- The size of a record is what its components take together. -/
theorem Component.toInt_sizes {n : Word} :
    ∀ {cs : List Component} {sum : Word}, Component.sizes sum cs = .ok n →
      n.toInt = sum.toInt + (cs.map (·.ty.bytes)).sum
  | [], _, h => by
    cases h
    simp
  | ⟨_, _, ty⟩ :: cs, sum, h => by
    obtain ⟨m, hm, h⟩ := except_bind_ok.mp h
    obtain ⟨next, hnext, h⟩ := except_bind_ok.mp h
    rw [Component.toInt_sizes h, Word.toInt_checkedAdd hnext, List.map_cons, List.sum_cons,
      Ty.bytes_eq hm, Int.add_assoc]

/-! ## Lengths -/

mutual

/-- No array in a type has a negative length. -/
def Ty.Counted : Ty → Prop
  | .void | .char | .int | .bool => True
  | .ptr target => target.Counted
  | .array elem len => 0 ≤ len ∧ elem.Counted
  | .record comps => Component.AllCounted comps

def Component.AllCounted : List Component → Prop
  | [] => True
  | ⟨_, _, ty⟩ :: cs => ty.Counted ∧ Component.AllCounted cs

end

mutual

instance Ty.decidableCounted : (ty : Ty) → Decidable ty.Counted
  | .void | .char | .int | .bool => isTrue trivial
  | .ptr target => target.decidableCounted
  | .array elem len => @instDecidableAnd _ _ (inferInstanceAs (Decidable (0 ≤ len)))
      elem.decidableCounted
  | .record comps => Component.decidableAllCounted comps

instance Component.decidableAllCounted :
    (comps : List Component) → Decidable (Component.AllCounted comps)
  | [] => isTrue trivial
  | ⟨_, _, ty⟩ :: cs => @instDecidableAnd _ _ ty.decidableCounted
      (Component.decidableAllCounted cs)

end

mutual

theorem Ty.Counted.size_nonneg :
    ∀ {ty : Ty} {n : Word}, ty.Counted → ty.size = .ok n → 0 ≤ n.toInt
  | .void, _, _, h | .char, _, _, h | .int, _, _, h | .bool, _, _, h | .ptr _, _, _, h => by
    cases h
    decide
  | .array elem len, _, ⟨hlen, helem⟩, h => by
    obtain ⟨n, hn, h⟩ := except_bind_ok.mp h
    rw [Word.exact_eq_ok_iff.mp h]
    exact Int.mul_nonneg (helem.size_nonneg hn) (Int64.le_iff_toInt_le.mp hlen)
  | .record comps, _, hc, h => Component.sizes_nonneg hc (by decide) h

theorem Component.sizes_nonneg :
    ∀ {cs : List Component} {sum n : Word}, Component.AllCounted cs → 0 ≤ sum.toInt →
      Component.sizes sum cs = .ok n → 0 ≤ n.toInt
  | [], _, _, _, hsum, h => by
    cases h
    exact hsum
  | ⟨_, _, ty⟩ :: cs, _, _, ⟨hty, hcs⟩, hsum, h => by
    obtain ⟨n, hn, h⟩ := except_bind_ok.mp h
    obtain ⟨next, hnext, h⟩ := except_bind_ok.mp h
    have hn0 := hty.size_nonneg hn
    have hnextInt := Word.toInt_checkedAdd hnext
    exact Component.sizes_nonneg hcs (by omega) h

end

/-! ## Whole words -/

mutual

/-- A size is a number of whole words. -/
theorem Ty.word_dvd_size : ∀ {ty : Ty} {n : Word}, ty.size = .ok n → (8 : Int) ∣ n.toInt
  | .void, _, h | .char, _, h | .int, _, h | .bool, _, h | .ptr _, _, h => by
    cases h
    decide
  | .array elem len, _, h => by
    obtain ⟨n, hn, h⟩ := except_bind_ok.mp h
    rw [Word.exact_eq_ok_iff.mp h]
    exact Dvd.dvd.mul_right (Ty.word_dvd_size hn) _
  | .record comps, _, h => Component.word_dvd_sizes (by decide) h

theorem Component.word_dvd_sizes :
    ∀ {cs : List Component} {sum n : Word}, (8 : Int) ∣ sum.toInt →
      Component.sizes sum cs = .ok n → (8 : Int) ∣ n.toInt
  | [], _, _, hsum, h => by
    cases h
    exact hsum
  | ⟨_, _, ty⟩ :: cs, _, _, hsum, h => by
    obtain ⟨n, hn, h⟩ := except_bind_ok.mp h
    obtain ⟨next, hnext, h⟩ := except_bind_ok.mp h
    refine Component.word_dvd_sizes ?_ h
    rw [Word.toInt_checkedAdd hnext]
    exact Int.dvd_add hsum (Ty.word_dvd_size hn)

end

theorem Ty.word_dvd_bytes (ty : Ty) : (8 : Int) ∣ ty.bytes := by
  unfold Ty.bytes
  split
  · next h => exact Ty.word_dvd_size h
  · exact Int.dvd_zero _

theorem Ty.Counted.bytes_nonneg {ty : Ty} (h : ty.Counted) : 0 ≤ ty.bytes := by
  unfold Ty.bytes
  split
  · next hn => exact h.size_nonneg hn
  · exact Int.le_refl _

end Typed

end MmixBackend
