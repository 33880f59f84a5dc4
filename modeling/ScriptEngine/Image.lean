/-! Binary images: the compiled form of a submission or of a library, before it is linked. -/

namespace ScriptEngine

inductive Operator where
  | add
  | sub
  | mul
  | div
  | rem
  | eq
  | ne
  | lt
  | le
  | gt
  | ge
  deriving Repr, DecidableEq

/-- One instruction of the stack machine. Jump targets are positions in the routine's code. -/
inductive Instr where
  | const (index : UInt16)
  | unit
  | bool (value : Bool)
  | loadLocal (index : UInt16)
  | storeLocal (index : UInt16)
  | loadSlot (record : UInt32) (index : UInt16)
  | storeSlot (record : UInt32) (index : UInt16)
  | loadImport (index : UInt16)
  | loadFunction (index : UInt16)
  /-- Create the submission's own record. -/
  | openRecord
  | binary (op : Operator)
  | neg
  | not
  | jump (target : UInt32)
  /-- Take the condition from the stack and jump if it is false. -/
  | jumpIfFalse (target : UInt32)
  | pop
  | call (argc : UInt8)
  | intrinsic (id : UInt8) (argc : UInt8)
  | makeList (count : UInt16)
  | index
  | setIndex
  | ret
  deriving Repr, DecidableEq

/-- A constant of a routine. Floating-point numbers are kept as their bits. -/
inductive Constant where
  | int (value : Int64)
  | float (bits : UInt64)
  | text (value : String)
  deriving Repr, DecidableEq

/-- From instruction `start` on, the code belongs to source line `line`. -/
structure LineMark where
  start : UInt32
  line : UInt32
  deriving Repr, DecidableEq

/-- The code of one function. The first locals are its parameters. -/
structure Routine where
  name : String
  arity : UInt8
  locals : UInt16
  constants : Array Constant
  code : Array Instr
  lines : List LineMark
  deriving Repr, DecidableEq, Inhabited

namespace Routine

/-- The source line of the instruction at `pc`: the line of the last of the leading marks that start
    at or before it, and zero if there is none. -/
def lineAt (r : Routine) (pc : Nat) : Nat :=
  match (r.lines.takeWhile fun m => m.start.toNat ≤ pc).getLast? with
  | some m => m.line.toNat
  | none => 0

/-- The part of a qualified name after its last point. -/
def unqualified (name : String) : String :=
  String.ofList (name.toList.reverse.takeWhile (· ≠ '.')).reverse

/-- The name as it was written in the source. -/
def shortName (r : Routine) : String := unqualified r.name

end Routine

structure ImportRef where
  library : String
  name : String
  deriving Repr, DecidableEq

inductive ImageKind where
  | submission
  | library
  deriving Repr, DecidableEq

structure Image where
  kind : ImageKind
  name : String
  /-- The number of the submission, zero for libraries. -/
  ordinal : UInt32
  slots : Array String
  imports : Array ImportRef
  functions : Array Routine
  /-- The qualified name of the routine that runs the submission. -/
  entry : Option String
  deriving Repr, DecidableEq

/-- The record that a submission owns: the one before its number. -/
def Image.ownRecord? (kind : ImageKind) (ordinal : UInt32) : Option Nat :=
  match kind with
  | .submission => if ordinal = 0 then none else some (ordinal.toNat - 1)
  | .library => none

end ScriptEngine
