import MmixBackend.Names
import MmixBackend.Word

/-!
# Faults of the machine

The causes for which a run stops without a result, and the wording of each.
-/

namespace MmixBackend.Machine

/-- Code that the machine cannot run. -/
inductive Malformation where
  /-- Control left the code at its end. -/
  | fellOff
  /-- A sequence stands as a statement. -/
  | sequence
  /-- A move into something that is no place. -/
  | target
  /-- An argument of a call is a call. -/
  | secondCall
  /-- A statement stands inside an expression. -/
  | statement
  deriving DecidableEq, Repr

def Malformation.message : Malformation → String
  | fellOff => "fell off the end of the chunk"
  | sequence => "nested statement sequence"
  | target => "move into a non-location"
  | secondCall => "more than one call in a statement"
  | statement => "statement inside an expression"

/-- Why a run stopped. -/
inductive Fault where
  | missingEntry (name : String)
  | unknownFunction (name : String)
  | unknownLabel (label function : String)
  | undefinedTemp (temp : Temp) (function : String)
  | unknownData (name : String)
  | malformed (function : String) (what : Malformation)
  | stepLimit (limit : Nat)
  | callDepth (limit : Nat)
  | input (reason : String)
  | overflow (cause : Overflow)
  deriving DecidableEq, Repr

def Fault.message : Fault → String
  | missingEntry name => "no code chunk for entry function " ++ name
  | unknownFunction name => "call to unknown function " ++ name
  | unknownLabel label function => "jump to unknown label " ++ label ++ " in " ++ function
  | undefinedTemp temp function => "read of undefined temp " ++ temp.text ++ " in " ++ function
  | unknownData name => "address of unknown label " ++ name
  | malformed function what => "non-linear code in " ++ function ++ ": " ++ what.message
  | stepLimit limit => "step limit of " ++ toString limit ++ " exceeded"
  | callDepth limit => "call depth of " ++ toString limit ++ " exceeded"
  | input reason => "reading program input: " ++ reason
  | overflow cause => cause.message

def exactly {α : Type} : Except Overflow α → Except Fault α
  | .ok a => .ok a
  | .error cause => .error (.overflow cause)

end MmixBackend.Machine
