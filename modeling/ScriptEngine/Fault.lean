import ScriptEngine.Value
import ScriptEngine.Intrinsic
import ScriptEngine.Decimal.Reader
import ScriptEngine.Bound.EmitError

/-! What can go wrong while a script runs. -/

namespace ScriptEngine

def Operator.spelling : Operator → String
  | add => "+"
  | sub => "-"
  | mul => "*"
  | div => "/"
  | rem => "%"
  | eq => "=="
  | ne => "!="
  | lt => "<"
  | le => "<="
  | gt => ">"
  | ge => ">="

inductive Wanted where
  | sequence
  | list
  | duration
  | convertible
  | numeric
  deriving Repr, DecidableEq

def Wanted.describe : Wanted → String
  | sequence => "a string or list"
  | list => "a list"
  | duration => "a non-negative int"
  | convertible => "a number, bool or string"
  | numeric => "a number or string"

/-- An operation on values of a type that it does not know. -/
inductive TypeFault where
  | negate (found : ValueType)
  | assignInto (found : ValueType)
  | apply (op : Operator) (left right : ValueType)
  | compare (left right : ValueType)
  | position (found : ValueType)
  | indexInto (found : ValueType)
  | argument (i : Intrinsic) (wanted : Wanted) (found : ValueType)
  deriving Repr, DecidableEq

def TypeFault.message : TypeFault → String
  | negate found => s!"cannot negate {found.name}"
  | assignInto found => s!"cannot assign into {found.name}"
  | apply op left right => s!"cannot apply `{op.spelling}` to {left.name} and {right.name}"
  | compare left right => s!"cannot compare {left.name} with {right.name}"
  | position found => s!"index must be an int, found {found.name}"
  | indexInto found => s!"cannot index into {found.name}"
  | argument i wanted found => s!"`{i.name}` expects {wanted.describe}, found {found.name}"

/-- Code that no compiled unit contains. -/
inductive ProgramFault where
  | noFrame
  | pastEnd (routine : String)
  | underflow
  | constant
  | localVariable
  | imported
  | function
  | noRecord (name : String)
  | slot (record index : Nat)
  | intrinsic (id : Nat)
  deriving Repr, DecidableEq

def ProgramFault.message : ProgramFault → String
  | noFrame => "no active frame"
  | pastEnd routine => s!"`{routine}` ran past its last instruction"
  | underflow => "operand stack underflow"
  | constant => "constant out of range"
  | localVariable => "local out of range"
  | imported => "import out of range"
  | function => "function out of range"
  | noRecord name => s!"`{name}` owns no submission record"
  | slot record index => s!"slot {index} out of range for submission #{record + 1}"
  | intrinsic id => s!"unknown intrinsic {id}"

inductive RuntimeError where
  | divisionByZero
  | overflow (op : Operator)
  | negationOverflow
  | conversionOverflow
  | typeMismatch (fault : TypeFault)
  | indexOutOfBounds (index : Int64) (length : Nat)
  | notCallable (found : ValueType)
  | arityMismatch (name : String) (expected received : Nat)
  | unassigned (name : String)
  | missingSubmission (ordinal : Nat)
  | cyclicList
  | stackOverflow (limit : Nat)
  | badInteger (quoted : String) (cause : Decimal.IntegerFault)
  | badFloat (quoted : String) (cause : Decimal.FloatFault)
  | panic (message : String)
  | cancelled
  | timedOut (millis : Nat)
  | invalidProgram (fault : ProgramFault)
  deriving Repr, DecidableEq

namespace RuntimeError

def message : RuntimeError → String
  | divisionByZero => "attempt to divide by zero"
  | overflow op => s!"integer overflow in `{op.spelling}`"
  | negationOverflow => "integer overflow in `-`"
  | conversionOverflow => "integer overflow in `int`"
  | typeMismatch fault => "Type mismatch: " ++ fault.message
  | indexOutOfBounds index length => s!"index {index} is out of bounds for length {length}"
  | notCallable found => s!"value of type {found.name} is not callable"
  | arityMismatch name expected received =>
    s!"Function `{name}` expected {expected} arguments but received {received}"
  | unassigned name => s!"variable `{name}` is used before it was assigned"
  | missingSubmission ordinal => s!"submission #{ordinal} has no state; it never ran"
  | cyclicList => "a list cannot contain itself"
  | stackOverflow limit => s!"call depth exceeded {limit}"
  | badInteger quoted _ => s!"cannot convert {quoted} to int"
  | badFloat quoted _ => s!"cannot convert {quoted} to float"
  | panic text => "Runtime panic: " ++ text
  | cancelled => "execution was cancelled"
  | timedOut millis => s!"execution timed out after {millis} ms"
  | invalidProgram fault => "invalid program: " ++ fault.message

def chain : RuntimeError → List String
  | badInteger quoted cause => [message (badInteger quoted cause), cause.message]
  | badFloat quoted cause => [message (badFloat quoted cause), cause.message]
  | e => [e.message]

end RuntimeError

/-- A function that was running, and the source line it was at. -/
structure TraceEntry where
  function : String
  line : Nat
  deriving Repr, DecidableEq

/-- An error and the functions that were running, the innermost first. -/
structure Fault where
  error : RuntimeError
  trace : List TraceEntry
  deriving Repr, DecidableEq

def Fault.render (f : Fault) : String :=
  "runtime error: " ++ explain f.error.chain ++
    String.join (f.trace.map fun t => s!"\n    at {t.function} (line {t.line})")

end ScriptEngine
