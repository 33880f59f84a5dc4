import ScriptEngine.CommandLine.Errand

/-! The program: jobs carried out on the real files, input and output. -/

open ScriptEngine

def faultOf : IO.Error → FileFault
  | .noFileOrDirectory .. => .notFound
  | .inappropriateType _ code _ => if code = 21 then .isDirectory else .notDirectory
  | e => .other (toString e)

def readBytes (path : String) : IO (Except FileFault (List UInt8)) := do
  try
    return .ok (← IO.FS.readBinFile path).toList
  catch e => return .error (faultOf e)

def writeBytes (path : String) (bytes : List UInt8) : IO (Except FileFault Unit) := do
  try
    IO.FS.writeBinFile path ⟨bytes.toArray⟩
    return .ok ()
  catch e => return .error (faultOf e)

/-- Read at most so many bytes up to a newline, after those that were read before, the last one first. -/
def readToNewline (input : IO.FS.Stream) : Nat → List UInt8 → IO (List UInt8)
  | 0, read => return read.reverse
  | limit + 1, read => do
    match (← input.read 1).toList with
    | [] => return read.reverse
    | b :: _ =>
      if b = Console.newline then return (b :: read).reverse else readToNewline input limit (b :: read)

def lineLimit : Nat := 4294967296

/-- Read a line; someone who types it sees the prompt. -/
def readInput (prompt : String) : IO Line := do
  let input ← IO.getStdin
  if ← input.isTty then
    let output ← IO.getStdout
    output.putStr prompt
    output.flush
  return (Console.linesOfBytes (← readToNewline input lineLimit [])).headD .endOfInput

def speak (out err : String) : IO Unit := do
  let output ← IO.getStdout
  output.putStr out
  output.flush
  (← IO.getStderr).putStr err

def carryOut : Job Nat → IO Nat
  | .done code => pure code
  | .readFile path next => do carryOut (next (← readBytes path))
  | .writeFile path bytes next => do carryOut (next (← writeBytes path bytes))
  | .isFile path next => do carryOut (next (← readBytes path).isOk)
  | .readLine prompt next => do carryOut (next (← readInput prompt))
  | .say out err next => do
    speak out err
    carryOut (next ())

def main (args : List String) : IO UInt32 := do
  return (← carryOut (CommandLine.errand args)).toUInt32
