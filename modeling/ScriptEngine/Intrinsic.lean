/-! The operations that are built into the language. They can be reached by their plain name when
    nothing else has it, and always as members of the library `core`. -/

namespace ScriptEngine

inductive Arity where
  | exactly (count : Nat)
  | any
  deriving Repr, DecidableEq

namespace Arity

def accepts : Arity → Nat → Bool
  | exactly expected, count => expected = count
  | any, _ => true

def describe : Arity → String
  | exactly 1 => "1 argument"
  | exactly n => s!"{n} arguments"
  | any => "any number of arguments"

end Arity

inductive Intrinsic where
  | print
  | len
  | str
  | int
  | float
  | push
  | sleep
  | panic
  | typeOf
  deriving Repr, DecidableEq

namespace Intrinsic

def library : String := "core"

/-- All intrinsics, in the order of their numbers in images. -/
def all : List Intrinsic := [print, len, str, int, float, push, sleep, panic, typeOf]

def name : Intrinsic → String
  | print => "print"
  | len => "len"
  | str => "str"
  | int => "int"
  | float => "float"
  | push => "push"
  | sleep => "sleep"
  | panic => "panic"
  | typeOf => "type_of"

def ofName? (name : String) : Option Intrinsic := all.find? (·.name = name)

def id : Intrinsic → UInt8
  | print => 0
  | len => 1
  | str => 2
  | int => 3
  | float => 4
  | push => 5
  | sleep => 6
  | panic => 7
  | typeOf => 8

def ofId? (id : UInt8) : Option Intrinsic := all[id.toNat]?

theorem ofId?_id (i : Intrinsic) : ofId? i.id = some i := by cases i <;> rfl

def arity : Intrinsic → Arity
  | print => .any
  | push => .exactly 2
  | _ => .exactly 1

end Intrinsic
end ScriptEngine
