/-!
# JSON values

A JSON value as it was written: object members stay in order and may repeat.  A number is kept
when it is written as an integer.  A number with a fraction or an exponent, minus zero, a string
whose escapes denote no text, and whatever nests too deep are well-formed, but no program holds
them; nothing is kept of them but that they are there.
-/

namespace MmixBackend

inductive Json where
  | null
  | bool (b : Bool)
  | int (n : Int)
  | str (s : String)
  /-- A value of which nothing is kept. -/
  | unusable
  | arr (items : List Json)
  | obj (members : List (String × Json))
  deriving Repr, Inhabited

namespace Json

/-- A size that the parts of a value are below, for recursion on values found by name. -/
theorem sizeOf_member {ms : List (String × Json)} {k : String} {v : Json} (h : (k, v) ∈ ms) :
    sizeOf v < sizeOf (Json.obj ms) := by
  have h₁ := List.sizeOf_lt_of_mem h
  have h₂ : sizeOf (k, v) = 1 + sizeOf k + sizeOf v := rfl
  have h₃ : sizeOf (Json.obj ms) = 1 + sizeOf ms := by simp
  omega

theorem sizeOf_item {vs : List Json} {v : Json} (h : v ∈ vs) : sizeOf v < sizeOf (Json.arr vs) := by
  have h₁ := List.sizeOf_lt_of_mem h
  have h₂ : sizeOf (Json.arr vs) = 1 + sizeOf vs := by simp
  omega

/-- A part of `j`: something smaller. -/
abbrev Part (j : Json) := { v : Json // sizeOf v < sizeOf j }

/-- The parts of an object under a given name, in order. -/
def named (j : Json) (name : String) : Option (List j.Part) :=
  match j with
  | .obj ms => some (ms.attach.filterMap fun ⟨(k, v), h⟩ =>
    if k = name then some ⟨v, sizeOf_member h⟩ else none)
  | _ => none

/-- The member of that name, which has to be there once. -/
def field (j : Json) (name : String) : Option j.Part :=
  match j.named name with
  | some [v] => some v
  | _ => none

/-- The member of that name if it is there; `none` when `j` is no object or repeats it. -/
def field? (j : Json) (name : String) : Option (Option j.Part) :=
  match j.named name with
  | some [] => some none
  | some [v] => some (some v)
  | _ => none

def items (j : Json) : Option (List j.Part) :=
  match j with
  | .arr vs => some (vs.attach.map fun ⟨v, h⟩ => ⟨v, sizeOf_item h⟩)
  | _ => none

/-- The name and payload of a variant: an object with one member. -/
def variant (j : Json) : Option (String × j.Part) :=
  match j with
  | .obj [(k, v)] => some (k, ⟨v, sizeOf_member (List.mem_singleton.mpr rfl)⟩)
  | _ => none

/-- The name of a variant without payload: a string, or an object whose one member is null. -/
def unitVariant : Json → Option String
  | .str s => some s
  | .obj [(k, .null)] => some k
  | _ => none

def text? : Json → Option String
  | .str s => some s
  | _ => none

def bool? : Json → Option Bool
  | .bool b => some b
  | _ => none

/-- An integer between two bounds, the upper one excluded. -/
def intIn? (low high : Int) : Json → Option Int
  | .int n => if low ≤ n ∧ n < high then some n else none
  | _ => none

def nat? (bound : Nat) (j : Json) : Option Nat := (j.intIn? 0 bound).map Int.toNat

def word? (j : Json) : Option Int64 :=
  (j.intIn? Int64.minValue.toInt (Int64.maxValue.toInt + 1)).map Int64.ofInt

end Json

end MmixBackend
