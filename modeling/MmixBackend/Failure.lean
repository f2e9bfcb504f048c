import MmixBackend.Ir.Text
import MmixBackend.Location
import MmixBackend.Typed.Id

/-!
# Failures of compilation

The causes for which a compilation stops, and the wording of each.  A defect is a typed program,
or intermediate code, of a shape that its producer should have ruled out; it is reported with
the place in the source it concerns.
-/

namespace MmixBackend

/-- A shape that the compiler cannot go on with. -/
inductive Defect where
  /-- An expression needs a frame and stands in no function. -/
  | outsideFunction
  /-- A function was called or lowered that has no frame. -/
  | noFrame (decl : DeclId)
  /-- A declaration was used that has no place in memory. -/
  | noAccess (decl : DeclId)
  /-- A variable lives deeper than the function that uses it. -/
  | variableOutOfScope
  /-- A record component has an address of its own. -/
  | absoluteComponent
  /-- A function lives too deep for its caller. -/
  | calleeOutOfScope
  /-- A string literal has no address. -/
  | unplacedLiteral
  /-- An address was asked of an expression that has none. -/
  | notMemory
  /-- A move into something that is neither a temporary nor memory. -/
  | moveInto (dst : Ir.Expr)
  /-- A function with a body has no frame when its code is collected. -/
  | missingFrame (function : String)
  /-- A function with a body has no code when it is collected. -/
  | notLowered (function : String)
  /-- A statement was left inside an expression. -/
  | nestedStatement
  /-- A move into something that no instruction writes to. -/
  | badTarget
  /-- A temporary got no register. -/
  | noRegister (temp : Temp) (function : String)
  /-- A return value has no place. -/
  | noReturnValue (function : String)

def Defect.message : Defect → String
  | outsideFunction => "code outside of any function"
  | noFrame decl => "no frame for function " ++ decl.text
  | noAccess decl => "no memory access for declaration " ++ decl.text
  | variableOutOfScope => "variable used outside its scope"
  | absoluteComponent => "record component with an absolute access"
  | calleeOutOfScope => "call to a function that is not in scope"
  | unplacedLiteral => "string literal without a static location"
  | notMemory => "expected an expression that denotes memory"
  | moveInto dst => "move into " ++ dst.form
  | missingFrame function => "no frame for " ++ function
  | notLowered function => "body of " ++ function ++ " was never translated"
  | nestedStatement => "statement expression left after canonicalization"
  | badTarget => "move into something other than a temp or memory"
  | noRegister temp function => temp.text ++ " has no register in " ++ function
  | noReturnValue function =>
    "return value of " ++ function ++ " has neither register nor slot"

/-- A limit of register allocation that a function ran into. -/
inductive Exhaustion where
  /-- Colouring did not succeed within the rounds it is given. -/
  | rounds (limit : Nat)
  /-- The spill slots take too much room. -/
  | spillArea (bytes : Word)

def Exhaustion.message : Exhaustion → String
  | rounds limit =>
    "register allocation did not settle within " ++ toString limit ++ " rounds"
  | spillArea bytes => "spill area of " ++ Word.text bytes ++ " bytes"

/-- A number of registers that cannot be allocated to. -/
inductive RegisterCount where
  | tooFew (got least : Nat)
  | tooMany (got most : Nat)

def RegisterCount.message : RegisterCount → String
  | tooFew got least =>
    "at least " ++ toString least ++ " registers are needed, got " ++ toString got
  | tooMany got most =>
    "at most " ++ toString most ++ " registers are available, got " ++ toString got

/-- Why a compilation stopped. -/
inductive Failure where
  | internal (loc : Location) (defect : Defect)
  | exhausted (loc : Location) (function : String) (what : Exhaustion)
  | config (count : RegisterCount)
  | missingEntry
  | overflow (cause : Overflow)

def Failure.message : Failure → String
  | internal loc defect => "Internal error at " ++ loc.text ++ ": " ++ defect.message
  | exhausted loc function what =>
    "Resource exhausted in " ++ function ++ " (" ++ loc.text ++ "): " ++ what.message
  | config count => "Invalid configuration: " ++ count.message
  | missingEntry => "Missing entry point: program has no _main function"
  | overflow cause => cause.message

end MmixBackend
