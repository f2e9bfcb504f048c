import MmixBackend.Word

/-!
# Constants

A register is set to a constant wyde by wyde: the lowest wyde of the magnitude is set, the other
nonzero wydes are added at their places, and a negative constant is negated at the end.  The
same steps serve for temporaries in abstract code and for registers in finished code.
-/

namespace MmixBackend

/-- The place of a wyde above the lowest. -/
inductive Place where
  | mediumLow
  | mediumHigh
  | high
  deriving DecidableEq, Repr

/-- The number of the wyde. -/
def Place.index : Place → Nat
  | mediumLow => 1
  | mediumHigh => 2
  | high => 3

/-- A step in setting a register to a constant. -/
inductive ConstantStep where
  | set (n : Nat)
  | add (place : Place) (n : Nat)
  | negate
  deriving DecidableEq, Repr

def placeStep (m : Nat) (place : Place) : List ConstantStep :=
  let n := Word.wyde m place.index
  if n = 0 then [] else [.add place n]

def constantSteps (v : Word) : List ConstantStep :=
  let m := Word.magnitude v
  .set (Word.wyde m 0) ::
    (placeStep m .mediumLow ++ placeStep m .mediumHigh ++ placeStep m .high ++
      if v < 0 then [.negate] else [])

end MmixBackend
