import MmixBackend.Proofs.Linkage
import MmixBackend.Proofs.Places

/-!
# Well-shaped programs

A program can be compiled when what it uses is there and what it assigns to is memory.  Both are
said here by going through the syntax, with no word of tables or of intermediate code.

Whether an expression denotes memory is a matter of how often its value is read from memory at last:
a variable is one read, the target of a pointer one more than the pointer, and an address one less
than what it is the address of.
-/

namespace MmixBackend

open Typed Build

namespace Typed

/-! ## Memory -/

/-- How often the value of an expression is read from memory at last. -/
def Expr.level : Expr → Nat
  | .name .. | .index .. | .field .. => 1
  | .deref _ e => e.level + 1
  | .unary _ .plus e | .scope _ e _ => e.level
  | .unary _ .addressOf e => e.level - 1
  | .cast _ ty e => if ty.isChar then 0 else e.level
  | .atom .. | .binary .. | .unary .. | .call .. | .block .. => 0

def Expr.denotesMemory (e : Expr) : Bool := 1 ≤ e.level

mutual

/-- Every assignment in an expression has a target of a kind.  Functions declared in it are left
out. -/
def Expr.assigns (kind : Expr → Bool) : Expr → Bool
  | .atom .. | .name .. => true
  | .index _ a b | .binary _ _ a b => a.assigns kind && b.assigns kind
  | .field _ e _ | .unary _ _ e | .deref _ e | .cast _ _ e | .scope _ e _ => e.assigns kind
  | .call _ _ args => Expr.allAssign kind args
  | .block _ body => Stmt.allAssign kind body

def Expr.allAssign (kind : Expr → Bool) : List Expr → Bool
  | [] => true
  | e :: es => e.assigns kind && Expr.allAssign kind es

/-- Every assignment in a statement has a target of a kind. -/
def Stmt.assigns (kind : Expr → Bool) : Stmt → Bool
  | .assign _ dst src => kind dst && dst.assigns kind && src.assigns kind
  | .eval _ e => e.assigns kind
  | .cond _ test yes no =>
    test.assigns kind && Stmt.allAssign kind yes && Stmt.allAssign kind no
  | .loop _ test body => test.assigns kind && Stmt.allAssign kind body

def Stmt.allAssign (kind : Expr → Bool) : List Stmt → Bool
  | [] => true
  | s :: ss => s.assigns kind && Stmt.allAssign kind ss

end

/-- An item assigns only to targets of a kind. -/
def Item.assigns (kind : Expr → Bool) : Item → Bool
  | .function _ _ (some body) => body.assigns kind
  | .function _ _ none | .var _ => true

/-! ## Declarations -/

def Expr.literals : Expr → List NodeId
  | .atom node (.str _) => [node.id]
  | _ => []

def Item.literals (i : Item) : List NodeId := i.exprs.flatMap Expr.literals

/-- The parameters and variables of an item, with the depth of the function they belong to. -/
def Item.places (i : Item) : List (DeclId × Option Nat) := i.vars.map fun v => (v.1, i.depth?)

/-- The parameters and variables of a program with these depths. -/
def Program.varPlaces (p : Program) : List (DeclId × Option Nat) := p.items.flatMap Item.places

/-- What a program declares that lies in memory: parameters, variables and components, which count
as being at depth zero. -/
def Program.places (p : Program) : List (DeclId × Option Nat) :=
  p.varPlaces ++ p.components.map (·, some 0)

def Program.depths (p : Program) : List (DeclId × Nat) :=
  p.items.filterMap fun
    | .function around head _ => some (head.id, around.length)
    | .var _ => none

/-- A function at depth `n` reaches what `d` declares. -/
def Program.reaches (p : Program) (n : Nat) (d : DeclId) : Bool :=
  p.places.any fun a => a.1 == d && a.2.all (· ≤ n)

/-- What `d` declares has an offset. -/
def Program.hasOffset (p : Program) (d : DeclId) : Bool :=
  p.places.any fun a => a.1 == d && a.2.isSome

/-- A function at depth `n` may call the function `f`. -/
def Program.mayCall (p : Program) (n : Nat) (f : DeclId) : Bool :=
  p.depths.any fun a => a.1 == f && a.2 ≤ n + 1

mutual

/-- In a function at depth `n`, what the expression uses is there, and what has to denote memory
does.  Functions declared in it are left out. -/
def Expr.isScoped (p : Program) (n : Nat) : Expr → Bool
  | .atom .. => true
  | .name _ d => p.reaches n d
  | .index _ arr idx => arr.isScoped p n && arr.denotesMemory && idx.isScoped p n
  | .field _ base d => base.isScoped p n && base.denotesMemory && p.hasOffset d
  | .binary _ _ l r => l.isScoped p n && r.isScoped p n
  | .unary _ .addressOf e => e.isScoped p n && e.denotesMemory
  | .unary _ _ e | .deref _ e | .cast _ _ e | .scope _ e _ => e.isScoped p n
  | .call _ f args => p.mayCall n f && Expr.allScoped p n args
  | .block _ body => Stmt.allScoped p n body

def Expr.allScoped (p : Program) (n : Nat) : List Expr → Bool
  | [] => true
  | e :: es => e.isScoped p n && Expr.allScoped p n es

/-- So it is for what stands in a statement. -/
def Stmt.isScoped (p : Program) (n : Nat) : Stmt → Bool
  | .assign _ dst src => dst.isScoped p n && src.isScoped p n
  | .eval _ e => e.isScoped p n
  | .cond _ test yes no => test.isScoped p n && Stmt.allScoped p n yes && Stmt.allScoped p n no
  | .loop _ test body => test.isScoped p n && Stmt.allScoped p n body

def Stmt.allScoped (p : Program) (n : Nat) : List Stmt → Bool
  | [] => true
  | s :: ss => s.isScoped p n && Stmt.allScoped p n ss

end

/-- An item uses what is there. -/
def Item.isScoped (p : Program) : Item → Bool
  | .function around _ (some body) => body.isScoped p around.length
  | .function _ _ none | .var _ => true

/-- In every function body, nested ones included, what is used is there, and what is assigned to is
memory. -/
def Program.isShaped (p : Program) : Bool :=
  p.items.all fun i => i.isScoped p && i.assigns Expr.denotesMemory

mutual

/-- The records in a type, each with its components. -/
def Ty.records : Ty → List (List Component)
  | .ptr target => target.records
  | .array elem _ => elem.records
  | .record comps => comps :: Component.listRecords comps
  | .void | .char | .int | .bool => []

def Component.listRecords : List Component → List (List Component)
  | [] => []
  | ⟨_, _, ty⟩ :: cs => ty.records ++ Component.listRecords cs

end

def Program.records (p : Program) : List (List Component) := p.types.flatMap Ty.records

/-- Records that have a component in common have the same components. -/
def Apart (R : List (List Component)) : Prop :=
  ∀ cs ∈ R, ∀ cs' ∈ R, ∀ d ∈ cs.map (·.id), d ∈ cs'.map (·.id) →
    Component.listComponents cs = Component.listComponents cs'

instance (R : List (List Component)) : Decidable (Apart R) :=
  inferInstanceAs (Decidable (∀ cs ∈ R, ∀ cs' ∈ R, ∀ d ∈ cs.map (·.id), d ∈ cs'.map (·.id) →
    Component.listComponents cs = Component.listComponents cs'))

/-- Functions have numbers of their own. -/
structure Program.Numbered (p : Program) : Prop extends p.Separate where
  functions : (p.heads.map (·.id)).Nodup

/-- Declarations have numbers of their own: functions, parameters and variables, and components, a
component being always one of records with the same components. -/
structure Program.Distinct (p : Program) : Prop extends p.Numbered where
  records : Apart p.records

end Typed

end MmixBackend
