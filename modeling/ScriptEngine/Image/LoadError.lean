import ScriptEngine.Image.Writer

/-! Why bytes are no image, or an image cannot be linked. -/

namespace ScriptEngine

inductive Malformation where
  | endOfData
  | badText
  | unknownOpcode
  | unknownTag
  deriving Repr, DecidableEq

def Malformation.message : Malformation → String
  | endOfData => "unexpected end of data"
  | badText => "invalid UTF-8 in string"
  | unknownOpcode => "unknown opcode"
  | unknownTag => "unknown tag"

/-- What is wrong with an instruction's operand, or with the size of a frame. -/
inductive OperandFault where
  | fewLocals (locals : Nat) (arity : Nat)
  | constant (index : Nat)
  | localVariable (index : Nat)
  | noState
  | laterRecord (record : Nat)
  | slot (index : Nat)
  | imported (index : Nat)
  | function (index : Nat)
  | noRecord
  | target (position : Nat)
  | intrinsic (id : Nat)
  deriving Repr, DecidableEq

def OperandFault.message : OperandFault → String
  | fewLocals locals arity => s!"{locals} locals cannot hold {arity} parameters"
  | constant index => s!"constant {index} out of range"
  | localVariable index => s!"local {index} out of range"
  | noState => "libraries have no submission state"
  | laterRecord record => s!"record {record} belongs to a later submission"
  | slot index => s!"slot {index} out of range"
  | imported index => s!"import {index} out of range"
  | function index => s!"function {index} out of range"
  | noRecord => "only submissions own a record"
  | target position => s!"jump target {position} out of range"
  | intrinsic id => s!"unknown intrinsic {id}"

inductive LoadError where
  | badMagic
  | unsupportedVersion (found : Nat)
  | malformed (offset : Nat) (reason : Malformation)
  | trailingBytes (count : Nat)
  | invalidOperand (routine : String) (pc : Nat) (fault : OperandFault)
  | unterminated (routine : String)
  | unresolvedImport (wanted : ImportRef)
  | missingEntry (name : String)
  | invalidEntry (name : String) (arity : Nat)
  deriving Repr, DecidableEq

def LoadError.message : LoadError → String
  | badMagic => "not a Prime image (bad magic)"
  | unsupportedVersion found =>
    s!"unsupported image format version {found} (expected {Image.formatVersion})"
  | malformed offset reason => s!"malformed image at byte {offset}: " ++ reason.message
  | trailingBytes count => s!"{count} trailing bytes after the image"
  | invalidOperand routine pc fault =>
    s!"invalid operand in `{routine}` at instruction {pc}: " ++ fault.message
  | unterminated routine => s!"`{routine}` is empty or does not end in a return"
  | unresolvedImport wanted =>
    s!"import `{wanted.library}::{wanted.name}` is not provided by any loaded reference"
  | missingEntry name => s!"entry point `{name}` not found"
  | invalidEntry name arity => s!"entry point `{name}` must take no parameters, found {arity}"

end ScriptEngine
