import MmixBackend.Names
import MmixBackend.Word

/-!
# Memory

Memory holds a word at every address; a word that was never stored is zero.  Addresses are
words, and two different addresses do not overlap.
-/

namespace MmixBackend.Machine

/-- The words that were stored, by address. -/
structure Memory where
  cells : Table Word Word := ∅

namespace Memory

def load (m : Memory) (a : Word) : Word := m.cells.getD a 0

def store (m : Memory) (a v : Word) : Memory := ⟨m.cells.insert a v⟩

/-- A word is found where it was stored, and nothing else changes. -/
theorem load_store (m : Memory) (a v b : Word) :
    (m.store a v).load b = if a = b then v else m.load b := by
  simp only [load, store, Std.ExtTreeMap.getD_insert, Std.LawfulEqOrd.compare_eq_iff_eq]

/-- Before anything is stored every word is zero. -/
theorem load_empty (a : Word) : ({} : Memory).load a = 0 := by
  simp [load]

end Memory

end MmixBackend.Machine
