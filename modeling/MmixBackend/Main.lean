import MmixBackend.CommandLine.Session

/-!
# The program

Reads the file it is given, carries out what the command line asks for, and reports failures on
the standard error output.
-/

namespace MmixBackend.CommandLine

/-- Everything on a stream. -/
partial def readAll (stream : IO.FS.Stream) (sofar : ByteArray) : IO ByteArray := do
  let chunk ← stream.read 65536
  if chunk.isEmpty then return sofar else readAll stream (sofar ++ chunk)

/-- The system's wording of an error, with its number. -/
def reasonOf : IO.Error → String
  | .noFileOrDirectory _ code details
  | .inappropriateType _ code details
  | .invalidArgument _ code details
  | .permissionDenied _ code details
  | .resourceExhausted _ code details =>
    details ++ " (os error " ++ toString code.toNat ++ ")"
  | e => toString e

def readInput : IO (Except String (List UInt8)) := do
  match ← (readAll (← IO.getStdin) ByteArray.empty).toBaseIO with
  | .ok input => return .ok input.toList
  | .error e => return .error (reasonOf e)

/-- Carries out actions; gives the failure that cut them short. -/
def perform : List Action → IO (Option String)
  | [] => return none
  | .print text :: actions => do
    IO.print text
    perform actions
  | .write purpose path text :: actions => do
    match ← (IO.FS.writeFile path text).toBaseIO with
    | .ok () => perform actions
    | .error e => return some (fileReport purpose path (reasonOf e))

def report (message : String) : IO UInt32 := do
  IO.eprintln ("Error: " ++ message)
  return 1

def compileFile (o : Options) : IO UInt32 := do
  match ← (IO.FS.readFile o.input).toBaseIO with
  | .error e => report (fileReport "reading" o.input (reasonOf e))
  | .ok source =>
    let input ← if o.run then readInput else pure (.ok [])
    let p := plan o source input
    if o.debug then
      for n in p.notes.reverse do
        if Level.debug.rank ≤ n.level.rank then
          IO.eprintln ("[" ++ n.level.name ++ "] " ++ n.text)
    match ← perform p.actions, p.ending with
    | some message, _ => report message
    | none, .failed message => report message
    | none, .crashed cause => do
      IO.eprintln cause.message
      return 101
    | none, .done => return 0

/-- Does what the arguments ask for; gives the exit code. -/
def start (args : List String) : IO UInt32 := do
  match parse args with
  | .usageError => do
    IO.eprintln "error: the arguments cannot be used\n\nFor more information, try '--help'."
    return 2
  | .help => do
    IO.print help
    return 0
  | .compile o => compileFile o

end MmixBackend.CommandLine

def main (args : List String) : IO UInt32 := MmixBackend.CommandLine.start args
