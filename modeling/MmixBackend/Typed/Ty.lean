import MmixBackend.Typed.Id
import MmixBackend.Word

/-!
# Types and their sizes

Every scalar takes one word.  An array takes its length times the size of an element, a record
the sum of the sizes of its components.  Lengths are arbitrary words, so a size can overflow.
-/

namespace MmixBackend.Typed

mutual

inductive Ty where
  | void
  | char
  | int
  | bool
  | ptr (target : Ty)
  | array (elem : Ty) (len : Word)
  | record (comps : List Component)

structure Component where
  id : DeclId
  name : String
  ty : Ty

end

instance : Inhabited Ty := ⟨.void⟩

instance : Inhabited Component := ⟨⟨default, "", .void⟩⟩

mutual

def Ty.size : Ty → Except Overflow Word
  | .void | .char | .int | .bool | .ptr _ => .ok Word.size
  | .array elem len => do
    let n ← elem.size
    Word.checkedMul n len
  | .record comps => Component.sizes 0 comps

/-- A sum with the sizes of components added one by one. -/
def Component.sizes (sum : Word) : List Component → Except Overflow Word
  | [] => .ok sum
  | ⟨_, _, ty⟩ :: cs => do
    let n ← ty.size
    let sum ← Word.checkedAdd sum n
    Component.sizes sum cs

end

def Ty.isChar : Ty → Bool
  | .char => true
  | _ => false

end MmixBackend.Typed
