import ScriptEngine.Image.LoadError
import ScriptEngine.Token

/-! Why a bound unit has no image. -/

namespace ScriptEngine

inductive EntryTable where
  | functions
  | imports
  | slots
  | indices
  | submissions
  deriving Repr, DecidableEq

namespace EntryTable

def describe : EntryTable → String
  | functions => "functions"
  | imports => "imports"
  | slots => "session variables"
  | indices => "indexed entries"
  | submissions => "submissions"

def limit : EntryTable → Nat
  | submissions => 4294967295
  | _ => 65536

end EntryTable

/-- The greatest number of parameters, and of arguments. -/
def argumentLimit : Nat := 255

/-- The greatest number of locals, and of elements of a list literal. -/
def wordLimit : Nat := 65535

/-- The greatest number of constants. -/
def constantLimit : Nat := 65536

inductive EmitError where
  | tooManyConstants (function : String)
  | tooManyLocals (function : String)
  | tooManyParameters (function : String) (count : Nat)
  | tooManyArguments (function : String) (count : Nat)
  | tooManyElements (function : String) (count : Nat)
  | codeTooLarge (function : String)
  | tooManyEntries (table : EntryTable) (count : Nat)
  | strayLoopControl (function : String) (keyword : Keyword)
  | load (cause : LoadError)
  deriving Repr

namespace EmitError

def message : EmitError → String
  | tooManyConstants function => s!"`{function}` uses more than {constantLimit} constants"
  | tooManyLocals function => s!"`{function}` declares more than {wordLimit} locals"
  | tooManyParameters function count =>
    s!"`{function}` declares {count} parameters; at most {argumentLimit} are supported"
  | tooManyArguments function count =>
    s!"a call in `{function}` passes {count} arguments; at most {argumentLimit} are supported"
  | tooManyElements function count =>
    s!"a list literal in `{function}` has {count} elements; at most {wordLimit} are supported"
  | codeTooLarge function => s!"`{function}` is too large to encode"
  | tooManyEntries table count =>
    s!"the unit has {count} {table.describe}; at most {table.limit} are supported"
  | strayLoopControl function keyword => s!"`{keyword.spelling}` outside of a loop in `{function}`"
  | load _ => "the emitted image failed to load"

def chain : EmitError → List String
  | load cause => [message (load cause), cause.message]
  | e => [e.message]

end EmitError

def explain (messages : List String) : String := "\ncaused by: ".intercalate messages

end ScriptEngine
