import Std.Data.ExtTreeMap

/-!
# Temporaries and labels

Compilation needs names that were never used before: temporaries, which are virtual registers,
and labels, which are symbolic addresses.  `Names` hands them out in ascending order and
remembers the text of the labels that have one.

Temporaries and labels are counted by natural numbers.  A count of 32 bits would end after 2^32
names; that end is left out here.
-/

namespace MmixBackend

/-- A finite table with ordered keys. -/
abbrev Table (κ : Type) (α : Type) [Ord κ] := Std.ExtTreeMap κ α compare

namespace Table

variable {κ α : Type} [Ord κ] [Std.TransOrd κ] [Std.LawfulEqOrd κ] {t : Table κ α} {k j : κ} {a b : α}

theorem getElem?_insert_of_ne (h : k ≠ j) : (t.insert k a)[j]? = t[j]? := by
  rw [Std.ExtTreeMap.getElem?_insert, if_neg]
  rwa [Std.LawfulEqOrd.compare_eq_iff_eq]

theorem of_getElem?_insert (h : (t.insert k a)[j]? = some b) :
    k = j ∧ b = a ∨ k ≠ j ∧ t[j]? = some b := by
  by_cases hk : k = j
  · rw [hk, Std.ExtTreeMap.getElem?_insert_self] at h
    exact Or.inl ⟨hk, (Option.some.inj h).symm⟩
  · exact Or.inr ⟨hk, getElem?_insert_of_ne hk ▸ h⟩

theorem mem_insert : j ∈ t.insert k a ↔ k = j ∨ j ∈ t := by
  rw [Std.ExtTreeMap.mem_insert, Std.LawfulEqOrd.compare_eq_iff_eq]

end Table

/-- A virtual register. -/
structure Temp where
  index : Nat
  deriving DecidableEq, Repr, Inhabited

/-- A symbolic code or data address. -/
structure Label where
  index : Nat
  deriving DecidableEq, Repr, Inhabited

instance : Ord Temp := ⟨compareOn Temp.index⟩

instance : Std.TransOrd Temp := inferInstanceAs (Std.TransCmp (compareOn Temp.index))

instance : Std.LawfulEqOrd Temp where
  eq_of_compare {a b} h := by
    have : a.index = b.index := Std.LawfulEqOrd.eq_of_compare h
    cases a
    cases b
    simp_all

instance : Ord Label := ⟨compareOn Label.index⟩

instance : Std.TransOrd Label := inferInstanceAs (Std.TransCmp (compareOn Label.index))

instance : Std.LawfulEqOrd Label where
  eq_of_compare {a b} h := by
    have : a.index = b.index := Std.LawfulEqOrd.eq_of_compare h
    cases a
    cases b
    simp_all

/-- `T0`, `T1`, … -/
def Temp.text (t : Temp) : String := "T" ++ toString t.index

/-- The temporaries and labels handed out so far. -/
structure Names where
  /-- Number of temporaries. -/
  temps : Nat := 0
  /-- The labels, each with its text if it has one. -/
  labels : Array (Option String) := #[]
  deriving Repr, Inhabited

namespace Names

def newTemp (n : Names) : Temp × Names := (⟨n.temps⟩, { n with temps := n.temps + 1 })

def newLabel (n : Names) : Label × Names :=
  (⟨n.labels.size⟩, { n with labels := n.labels.push none })

/-- The label with a given text, if there is one. -/
def lookup (n : Names) (name : String) : Option Label :=
  (n.labels.findIdx? (· == some name)).map Label.mk

/-- The label with a given text, made on the first request. -/
def named (n : Names) (name : String) : Label × Names :=
  match n.lookup name with
  | some l => (l, n)
  | none => (⟨n.labels.size⟩, { n with labels := n.labels.push (some name) })

/-- A label's text, or `L0`, `L1`, … for one without. -/
def textOf (n : Names) (l : Label) : String :=
  match n.labels[l.index]? with
  | some (some name) => name
  | _ => "L" ++ toString l.index

/-- A temporary that was handed out. -/
def HasTemp (n : Names) (t : Temp) : Prop := t.index < n.temps

/-- A label that was handed out. -/
def HasLabel (n : Names) (l : Label) : Prop := l.index < n.labels.size

@[simp] theorem newTemp_fst (n : Names) : n.newTemp.1 = ⟨n.temps⟩ := rfl

@[simp] theorem newTemp_temps (n : Names) : n.newTemp.2.temps = n.temps + 1 := rfl

@[simp] theorem newTemp_labels (n : Names) : n.newTemp.2.labels = n.labels := rfl

@[simp] theorem newLabel_fst (n : Names) : n.newLabel.1 = ⟨n.labels.size⟩ := rfl

@[simp] theorem newLabel_temps (n : Names) : n.newLabel.2.temps = n.temps := rfl

@[simp] theorem newLabel_labels (n : Names) : n.newLabel.2.labels = n.labels.push none := rfl

/-- A fresh temporary was not handed out before. -/
theorem not_hasTemp_newTemp (n : Names) : ¬ n.HasTemp n.newTemp.1 := Nat.lt_irrefl _

/-- A fresh label was not handed out before. -/
theorem not_hasLabel_newLabel (n : Names) : ¬ n.HasLabel n.newLabel.1 := Nat.lt_irrefl _

end Names

end MmixBackend
