/-
The program.

Reads the document that the arguments name, from a file or, for `-`, from standard
input, and prints the answer.
-/
import TreeWalk.CommandLine.Answer

namespace TreeWalk.CommandLine

/-- Reads a stream to its end. -/
partial def readAll (stream : IO.FS.Stream) (done : ByteArray) : IO ByteArray := do
  let chunk ← stream.read 65536
  if chunk.isEmpty then return done else readAll stream (done ++ chunk)

/-- Loads the document in a file, or on standard input. -/
def loadFile (file : String) : IO (Except LoadError Node) := do
  if file == "-" then
    return Node.loadBytes (← readAll (← IO.getStdin) ByteArray.empty)
  else
    match ← (IO.FS.readBinFile file).toBaseIO with
    | .ok bytes => return Node.loadBytes bytes
    | .error e => return .error (.file file (toString e))

end TreeWalk.CommandLine

open TreeWalk.CommandLine in
/-- Answers the arguments. -/
def main (arguments : List String) : IO UInt32 := do
  let a ← answer loadFile arguments
  unless a.output.isEmpty do IO.print a.output
  unless a.complaint.isEmpty do IO.eprintln a.complaint
  return UInt32.ofNat a.code
