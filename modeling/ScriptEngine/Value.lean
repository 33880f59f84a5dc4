import ScriptEngine.CodeModule

/-! Values of running scripts. Lists are shared and can change, so they live in a heap and a value only
    names one. -/

namespace ScriptEngine

inductive Value where
  | unit
  | int (value : Int64)
  | float (value : Float)
  | bool (value : Bool)
  | text (value : String)
  /-- The list at a position of the heap. -/
  | list (id : Nat)
  | function (callee : Callable)
  deriving Inhabited

inductive ValueType where
  | unit
  | int
  | float
  | bool
  | text
  | list
  | function
  deriving Repr, DecidableEq

def ValueType.name : ValueType → String
  | unit => "unit"
  | int => "int"
  | float => "float"
  | bool => "bool"
  | text => "string"
  | list => "list"
  | function => "function"

/-- The lists of a session. A list keeps its position for good. -/
structure Heap where
  lists : Array (Array Value)

namespace Heap

def empty : Heap := ⟨#[]⟩

def size (h : Heap) : Nat := h.lists.size

def items (h : Heap) (id : Nat) : Array Value := h.lists.getD id #[]

def alloc (h : Heap) (items : Array Value) : Heap × Nat :=
  let id := h.size
  (⟨h.lists.push items⟩, id)

def append (h : Heap) (id : Nat) (v : Value) : Heap := ⟨h.lists.modify id (·.push v)⟩

def replace (h : Heap) (id position : Nat) (v : Value) : Heap :=
  ⟨h.lists.modify id fun xs => xs.setIfInBounds position v⟩

end Heap

namespace Value

def type : Value → ValueType
  | unit => .unit
  | int _ => .int
  | float _ => .float
  | bool _ => .bool
  | text _ => .text
  | list _ => .list
  | function _ => .function

def typeName (v : Value) : String := v.type.name

/-- The value counts as true in a condition. -/
def isTrue (h : Heap) : Value → Bool
  | bool b => b
  | int n => n ≠ 0
  | float x => x != 0
  | text s => !s.isEmpty
  | list id => !(h.items id).isEmpty
  | function _ => true
  | unit => false

/-- The floating-point number nearest to an integer. -/
def nearestFloat (n : Int64) : Float := Float.ofInt n.toInt

/-- Two values that are not both lists are equal. An integer equals the number it is rounded to. -/
def sameScalar : Value → Value → Bool
  | unit, unit => true
  | int a, int b => a = b
  | float a, float b => a == b
  | int a, float b => nearestFloat a == b
  | float a, int b => nearestFloat b == a
  | bool a, bool b => a = b
  | text a, text b => a = b
  | function a, function b => a = b
  | _, _ => false

end Value
end ScriptEngine
