import ScriptEngine.CodeModule

/-! Loaded libraries, and the set of them that submissions are compiled against. -/

namespace ScriptEngine

structure Export where
  name : String
  arity : Nat
  index : Nat
  deriving Repr, DecidableEq

structure Library where
  location : String
  code : CodeModule
  exports : List Export
  deriving Repr

namespace Library

/-- The name that submissions use for the library. -/
def name (l : Library) : String := l.code.name

/-- Every function is available under its unqualified name. -/
def exportsOf (m : CodeModule) : List Export :=
  (m.functions.toList.take CodeModule.indexLimit).zipIdx.map fun (r, i) =>
    ⟨r.shortName, r.arity.toNat, i⟩

def ofModule (location : String) (m : CodeModule) : Library := ⟨location, m, exportsOf m⟩

def export? (l : Library) (name : String) : Option Export := l.exports.find? (·.name = name)

end Library

/-- The libraries that submissions can use, in the order of their locations. -/
abbrev ReferenceSet := Array Library

namespace ReferenceSet

def position? (refs : ReferenceSet) (name : String) : Option Nat := refs.findIdx? (·.name = name)

def library? (refs : ReferenceSet) (name : String) : Option Library := refs.find? (·.name = name)

def resolve? (refs : ReferenceSet) (wanted : ImportRef) : Option Callable := do
  let i ← refs.position? wanted.library
  let l ← refs[i]?
  let e ← l.export? wanted.name
  return ⟨.library i, e.index⟩

end ReferenceSet

/-- All linked code that a running fragment can reach. -/
structure Program where
  references : ReferenceSet
  fragments : Array CodeModule

namespace Program

def module? (p : Program) : Home → Option CodeModule
  | .library i => (p.references[i]?).map (·.code)
  | .fragment i => p.fragments[i]?

def routine? (p : Program) (c : Callable) : Option Routine := do
  let m ← p.module? c.home
  m.functions[c.index]?

def routineName (p : Program) (c : Callable) : String := ((p.routine? c).map (·.name)).getD ""

end Program
end ScriptEngine
