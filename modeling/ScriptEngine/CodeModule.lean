import ScriptEngine.Image

/-! Linked code: an image whose imports stand for functions of loaded libraries. -/

namespace ScriptEngine

/-- Which module a function belongs to: a library of the reference set, or a fragment by the order
    in which fragments were loaded. -/
inductive Home where
  | library (index : Nat)
  | fragment (index : Nat)
  deriving Repr, DecidableEq

/-- A function of a module. Two callables are the same function exactly if they are equal. -/
structure Callable where
  home : Home
  index : Nat
  deriving Repr, DecidableEq

structure CodeModule where
  name : String
  kind : ImageKind
  ordinal : UInt32
  functions : Array Routine
  imports : Array Callable
  slots : Array String
  deriving Repr

namespace CodeModule

/-- The record that the module's entry routine fills. -/
def record? (m : CodeModule) : Option Nat := Image.ownRecord? m.kind m.ordinal

/-- The number of indices that an operand of two bytes can name. -/
def indexLimit : Nat := 65536

def find? (m : CodeModule) (name : String) : Option Nat :=
  (m.functions.findIdx? (·.name = name)).filter (· < indexLimit)

end CodeModule
end ScriptEngine
