import MmixBackend.CommandLine.FileSystem
import MmixBackend.Text.Utf8

/-!
# The world around a run

A file system with the standard streams, and how texts are read from it and written to it.
-/

namespace MmixBackend.CommandLine

/-- What is around a run of the command line. -/
structure World where
  disk : FileSystem
  input : List UInt8 := []
  output : String := ""

namespace World

def print (w : World) (text : String) : World := { w with output := w.output ++ text }

def readDevice (w : World) : Device → Except FileError (String × World)
  | .input =>
    match Text.ofOctets? w.input with
    | some text => .ok (text, { w with input := [] })
    | none => .error .notText
  | .full => .error .outOfMemory
  | .null | .output | .errors => .ok ("", w)

def writeDevice (w : World) (text : String) : Device → Except FileError World
  | .output => .ok (w.print text)
  | .full => .error .noSpace
  | .null | .input | .errors => .ok w

def read (w : World) (path : String) : Except FileError (String × World) := do
  match ← w.disk.find path with
  | .directory => throw .isADirectory
  | .file text => return (text, w)
  | .device d => w.readDevice d

def write (w : World) (path text : String) : Except FileError World := do
  let place ← w.disk.target path
  match w.disk.entry? place with
  | some (.device d) => w.writeDevice text d
  | _ => return { w with disk := w.disk.put place text }

end World

end MmixBackend.CommandLine
