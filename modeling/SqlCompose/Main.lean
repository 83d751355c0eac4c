import SqlCompose.Cli.Run

/-! The program: it reads what the arguments ask for, and prints how the run ends. -/

namespace SqlCompose.Cli

/-- The reason of a failed read; kinds of files are told apart by the code of the system. -/
def ReadFault.ofError : IO.Error → ReadFault
  | .noFileOrDirectory .. => .notFound
  | .inappropriateType _ 20 _ => .notDirectory
  | .inappropriateType _ 21 _ => .isDirectory
  | e => .other (toString e).toList

def decodeText (bytes : ByteArray) : Except ReadFault Text :=
  match String.fromUTF8? bytes with
  | some s => .ok s.toList
  | none => .error .notText

def readText (bytes : IO ByteArray) : IO (Except ReadFault Text) := do
  try
    return decodeText (← bytes)
  catch e => return .error (.ofError e)

/-- Reads a stream to its end. -/
partial def readAll (stream : IO.FS.Stream) (found : ByteArray) : IO ByteArray := do
  let chunk ← stream.read 65536
  if chunk.isEmpty then return found else readAll stream (found ++ chunk)

def readFile (path : Text) : IO (Except ReadFault Text) :=
  readText (IO.FS.withFile (String.ofList path) .read fun handle => handle.readBinToEnd)

def readVariables (s : Text) : IO (List (Text × Text)) :=
  (Expand.keys s).filterMapM fun key => do
    return (← IO.getEnv (String.ofList key)).map fun value => (key, value.toList)

def readSurroundings (i : Inputs) : IO Surroundings := do
  let config ← readFile i.config
  let values ← readVariables (config.toOption.getD [])
  let source ← match i.file with
    | some path => readFile path
    | none => readText (do readAll (← IO.getStdin) .empty)
  return {
    file := fun path => if path = i.config then config else source
    input := source
    getVar := fun key => values.lookup key }

def surroundingsFor (args : List Text) : IO Surroundings :=
  match (parseArgs args).toOption.bind Command.inputs? with
  | some i => readSurroundings i
  | none => return ⟨fun _ => .error .notFound, .ok [], fun _ => none⟩

def runProgram (args : List Text) : IO UInt32 := do
  let e := ending (← surroundingsFor args) args
  IO.print (String.ofList e.output)
  IO.eprint (String.ofList e.errors)
  return e.exit.toUInt32

end SqlCompose.Cli

def main (args : List String) : IO UInt32 :=
  SqlCompose.Cli.runProgram (args.map String.toList)
