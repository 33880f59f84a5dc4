import ScriptEngine.Console

/-! Jobs: what the program does with files, input and output, written down apart from who carries it out. -/

namespace ScriptEngine

inductive Job (α : Type) where
  | done (result : α)
  | readFile (path : String) (next : Except FileFault (List UInt8) → Job α)
  | writeFile (path : String) (bytes : List UInt8) (next : Except FileFault Unit → Job α)
  | isFile (path : String) (next : Bool → Job α)
  | readLine (prompt : String) (next : Line → Job α)
  | say (out err : String) (next : Unit → Job α)

namespace Job

variable {α β : Type}

def bind (job : Job α) (f : α → Job β) : Job β :=
  match job with
  | done result => f result
  | readFile path next => readFile path fun r => (next r).bind f
  | writeFile path bytes next => writeFile path bytes fun r => (next r).bind f
  | isFile path next => isFile path fun r => (next r).bind f
  | readLine prompt next => readLine prompt fun r => (next r).bind f
  | say out err next => say out err fun r => (next r).bind f

instance : Monad Job where
  pure := done
  bind := bind

structure World where
  files : FileTree
  input : List Line
  out : String
  err : String

namespace World

def nextLine (w : World) : Line := w.input.headD .endOfInput

def afterLine (w : World) : World := { w with input := w.input.drop 1 }

def hear (w : World) (out err : String) : World := { w with out := w.out ++ out, err := w.err ++ err }

end World

def runIn (job : Job α) (w : World) : α × World :=
  match job with
  | done result => (result, w)
  | readFile path next => (next (w.files.read path)).runIn w
  | writeFile path bytes next =>
    match w.files.write path bytes with
    | .ok files => (next (.ok ())).runIn { w with files := files }
    | .error fault => (next (.error fault)).runIn w
  | isFile path next => (next (w.files.isFile path)).runIn w
  | readLine _ next => (next w.nextLine).runIn w.afterLine
  | say out err next => (next ()).runIn (w.hear out err)

end Job
end ScriptEngine
