import Std.Data.ExtTreeMap

/-!
# Identities

The nodes and the declarations of a typed program carry numbers, and whoever refers to one does
so by its number.  Nothing but equality of numbers, and the order in which tables list them,
means anything.
-/

namespace MmixBackend

/-- The identity of an expression or a statement. -/
structure NodeId where
  number : UInt32
  deriving DecidableEq, Repr, Inhabited

/-- The identity of a variable, parameter, function or record component. -/
structure DeclId where
  number : UInt32
  deriving DecidableEq, Repr, Inhabited

instance : Ord NodeId := ⟨compareOn NodeId.number⟩

instance : Std.TransOrd NodeId := inferInstanceAs (Std.TransCmp (compareOn NodeId.number))

instance : Std.LawfulEqOrd NodeId where
  eq_of_compare {a b} h := by
    have : a.number = b.number := Std.LawfulEqOrd.eq_of_compare h
    cases a
    cases b
    simp_all

instance : Ord DeclId := ⟨compareOn DeclId.number⟩

instance : Std.TransOrd DeclId := inferInstanceAs (Std.TransCmp (compareOn DeclId.number))

instance : Std.LawfulEqOrd DeclId where
  eq_of_compare {a b} h := by
    have : a.number = b.number := Std.LawfulEqOrd.eq_of_compare h
    cases a
    cases b
    simp_all

/-- A declaration's number with a sign in front. -/
def DeclId.text (d : DeclId) : String := "#" ++ toString d.number.toNat

end MmixBackend
