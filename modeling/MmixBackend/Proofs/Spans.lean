import Mathlib.Algebra.Order.BigOperators.Group.List
import Mathlib.Algebra.Ring.Int.Defs
import Mathlib.Data.List.Forall2
import Mathlib.Data.List.Pairwise
import MmixBackend.Proofs.Layout

/-!
# Stretches of memory

What is laid out one after another takes stretches that touch: upward from an offset, as parameters
and components do, or downward, as local variables do.  Stretches of no negative length that touch
are disjoint and cover everything from the start of the first to the end of the last.
-/

namespace MmixBackend

open Typed

/-- A stretch of memory. -/
structure Span where
  start : Int
  bytes : Int
  deriving DecidableEq, Repr

namespace Span

/-- A byte of the stretch. -/
def Has (s : Span) (x : Int) : Prop := s.start ≤ x ∧ x < s.start + s.bytes

/-- No byte is in both. -/
def Apart (s t : Span) : Prop := ∀ x, ¬ (s.Has x ∧ t.Has x)

/-- No byte is in two of the stretches, and those from `low` to below `high` are what they have
together. -/
structure Tile (low high : Int) (spans : List Span) : Prop where
  apart : spans.Pairwise Apart
  cover : ∀ x, (∃ s ∈ spans, s.Has x) ↔ low ≤ x ∧ x < high

/-- Stretches of these lengths, upward from `low`. -/
def upFrom (low : Int) : List Int → List Span
  | [] => []
  | n :: ns => ⟨low, n⟩ :: upFrom (low + n) ns

/-- Stretches of these lengths, downward from `high`. -/
def downFrom (high : Int) : List Int → List Span
  | [] => []
  | n :: ns => ⟨high - n, n⟩ :: downFrom (high - n) ns

theorem downFrom_append (ns ms : List Int) :
    ∀ high, downFrom high (ns ++ ms) = downFrom high ns ++ downFrom (high - ns.sum) ms := by
  induction ns with
  | nil =>
    intro high
    simp [downFrom]
  | cons n ns ih =>
    intro high
    rw [List.cons_append, downFrom, downFrom, ih, List.cons_append, List.sum_cons, Int.sub_sub]

section Tile

variable {low mid high : Int} {ns : List Int} {spans : List Span} {s : Span}

theorem tile_nil : Tile low low [] where
  apart := .nil
  cover x := by
    constructor
    · rintro ⟨s, hs, -⟩
      cases hs
    · intro h
      omega

theorem Tile.cons {low' high' : Int} (h : Tile low' high' spans)
    (hout : ∀ x, s.Has x → ¬ (low' ≤ x ∧ x < high'))
    (hall : ∀ x, (s.Has x ∨ low' ≤ x ∧ x < high') ↔ low ≤ x ∧ x < high) :
    Tile low high (s :: spans) where
  apart := by
    refine List.pairwise_cons.mpr ⟨fun t ht x hx => ?_, h.apart⟩
    exact hout x hx.1 ((h.cover x).mp ⟨t, ht, hx.2⟩)
  cover x := by
    rw [List.exists_mem_cons_iff, h.cover, hall]

theorem sum_nonneg_of_cons {n : Int} (h : ∀ m ∈ n :: ns, 0 ≤ m) :
    0 ≤ n ∧ (∀ m ∈ ns, 0 ≤ m) ∧ 0 ≤ ns.sum := by
  obtain ⟨hn, hns⟩ := List.forall_mem_cons.mp h
  exact ⟨hn, hns, List.sum_nonneg hns⟩

theorem tile_upFrom (h : ∀ n ∈ ns, 0 ≤ n) : ∀ low, Tile low (low + ns.sum) (upFrom low ns) := by
  induction ns with
  | nil =>
    intro low
    simpa [upFrom] using (tile_nil : Tile low low [])
  | cons n ns ih =>
    intro low
    obtain ⟨hn, hns, hsum⟩ := sum_nonneg_of_cons h
    rw [List.sum_cons, ← Int.add_assoc]
    refine (ih hns (low + n)).cons ?_ ?_
    · rintro x ⟨-, hx⟩
      simp only at hx
      omega
    · intro x
      simp only [Has]
      omega

theorem tile_downFrom (h : ∀ n ∈ ns, 0 ≤ n) :
    ∀ high, Tile (high - ns.sum) high (downFrom high ns) := by
  induction ns with
  | nil =>
    intro high
    simpa [downFrom] using (tile_nil : Tile high high [])
  | cons n ns ih =>
    intro high
    obtain ⟨hn, hns, hsum⟩ := sum_nonneg_of_cons h
    rw [List.sum_cons, ← Int.sub_sub]
    refine (ih hns (high - n)).cons ?_ ?_
    · rintro x ⟨hx, -⟩
      simp only at hx
      omega
    · intro x
      simp only [Has]
      omega

theorem bounds_upFrom (h : ∀ n ∈ ns, 0 ≤ n) :
    ∀ {low}, s ∈ upFrom low ns → low ≤ s.start ∧ s.start + s.bytes ≤ low + ns.sum := by
  induction ns with
  | nil =>
    intro low hs
    cases hs
  | cons n ns ih =>
    intro low hs
    obtain ⟨hn, hns, hsum⟩ := sum_nonneg_of_cons h
    rw [List.sum_cons]
    rcases List.mem_cons.mp hs with rfl | hs
    · simp only
      omega
    · have := ih hns hs
      omega

theorem bounds_downFrom (h : ∀ n ∈ ns, 0 ≤ n) :
    ∀ {high}, s ∈ downFrom high ns → high - ns.sum ≤ s.start ∧ s.start + s.bytes ≤ high := by
  induction ns with
  | nil =>
    intro high hs
    cases hs
  | cons n ns ih =>
    intro high hs
    obtain ⟨hn, hns, hsum⟩ := sum_nonneg_of_cons h
    rw [List.sum_cons]
    rcases List.mem_cons.mp hs with rfl | hs
    · simp only
      omega
    · have := ih hns hs
      omega

end Tile

end Span

/-! ## What lies there -/

/-- What a declaration of a type takes, relative to the frame pointer of the function at a depth or
to the start of its record. -/
def Lies (places : Table DeclId Access) (depth : Nat) (v : DeclId × Ty) (span : Span) : Prop :=
  ∃ offset n, places[v.1]? = some (.relative offset depth) ∧ v.2.size = .ok n ∧
    span = ⟨offset.toInt, n.toInt⟩

section Lies

variable {places places' : Table DeclId Access} {depth : Nat} {v : DeclId × Ty}
  {vs : List (DeclId × Ty)} {span : Span} {spans : List Span}

theorem Lies.congr (h : Lies places depth v span) (hv : places'[v.1]? = places[v.1]?) :
    Lies places' depth v span := by
  obtain ⟨offset, n, hplace, hn, rfl⟩ := h
  exact ⟨offset, n, hv.trans hplace, hn, rfl⟩

theorem lie_congr (h : List.Forall₂ (Lies places depth) vs spans)
    (hvs : ∀ v ∈ vs, places'[v.1]? = places[v.1]?) :
    List.Forall₂ (Lies places' depth) vs spans := by
  induction h with
  | nil => exact .nil
  | cons hv _ ih =>
    obtain ⟨hfirst, hrest⟩ := List.forall_mem_cons.mp hvs
    exact .cons (hv.congr hfirst) (ih hrest)

end Lies

end MmixBackend
