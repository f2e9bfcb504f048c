import MmixBackend.Target.Interference

/-!
# Colouring

A colour is a register.  The graph is taken apart one temporary at a time: the first one with
fewer neighbours than there are colours, because it can always be coloured later, and if there
is none, the one with the most neighbours, which may have to be spilled.  Temporaries that stem
from an earlier spill are chosen for that only when nothing else is left.  In the opposite order
each temporary gets the lowest colour that no neighbour has.
-/

namespace MmixBackend.Interference

/-- A temporary set aside, and whether it may have to be spilled. -/
structure Removal where
  temp : Temp
  potentialSpill : Bool
  deriving DecidableEq, Repr

def degrees (g : Interference) : Table Temp Nat :=
  g.vertices.map fun _ v => v.neighbours.size

/-- Does the second of two candidates come before the first as a spill?  The later wins a
tie. -/
def prefers (repair : TempSet) (a b : Temp × Nat) : Bool :=
  let fresh (t : Temp) := !repair.contains t
  if fresh a.1 = fresh b.1 then a.2 ≤ b.2 else fresh b.1

/-- The best candidate for a spill. -/
def worst (repair : TempSet) : List (Temp × Nat) → Option (Temp × Nat)
  | [] => none
  | c :: cs => some (cs.foldl (fun best d => if prefers repair best d then d else best) c)

def next (k : Nat) (repair : TempSet) (degrees : Table Temp Nat) : Option Removal :=
  let candidates := degrees.toList
  match candidates.find? (·.2 < k) with
  | some (t, _) => some ⟨t, false⟩
  | none => (worst repair candidates).map fun (t, _) => ⟨t, true⟩

/-- The degrees without a temporary: each of its neighbours has one less. -/
def remove (g : Interference) (t : Temp) (degrees : Table Temp Nat) : Table Temp Nat :=
  (g.neighbours t).toList.foldl (fun ds n => ds.modify n (· - 1)) (degrees.erase t)

/-- Sets so many temporaries aside; the last one comes first. -/
def takeApart (g : Interference) (k : Nat) (repair : TempSet) :
    Nat → Table Temp Nat → List Removal → List Removal
  | 0, _, stack => stack
  | count + 1, degrees, stack =>
    match next k repair degrees with
    | none => stack
    | some r => takeApart g k repair count (g.remove r.temp degrees) (r :: stack)

def simplify (g : Interference) (k : Nat) (repair : TempSet) : List Removal :=
  takeApart g k repair g.size g.degrees []

def taken (g : Interference) (t : Temp) : List Nat :=
  (g.neighbours t).toList.filterMap fun n => g.vertices[n]? >>= (·.color)

/-- The lowest of `k` colours that no neighbour has. -/
def freeColor (g : Interference) (k : Nat) (t : Temp) : Option Nat :=
  let used := g.taken t
  (List.range k).find? fun c => !used.contains c

/-- Records the outcome for a temporary. -/
def setColor (g : Interference) (r : Removal) (color : Option Nat) : Interference :=
  ⟨g.vertices.modify r.temp fun v =>
    { v with color, potentialSpill := r.potentialSpill, spill := color.isNone }⟩

/-- Colours temporaries in order; gives those that are left without a colour as well. -/
def paint (k : Nat) : Interference → List Removal → Interference × List Temp
  | g, [] => (g, [])
  | g, r :: rs =>
    let color := g.freeColor k r.temp
    let (g', spills) := paint k (g.setColor r color) rs
    (g', if color.isNone then r.temp :: spills else spills)

end MmixBackend.Interference
