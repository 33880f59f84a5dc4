import ScriptEngine.Span

/-! The names that a unit declares at its top level. -/

namespace ScriptEngine

inductive SymbolKind where
  | variable (mutable : Bool)
  | function (arity : Nat) (index : Nat)
  deriving Repr, DecidableEq

/-- A declared name. Its value lives in slot `slot` of the unit's record. -/
structure Symbol where
  name : String
  kind : SymbolKind
  slot : Nat
  span : Span
  deriving Repr, DecidableEq

/-- The declarations of a unit in slot order. Declaring a name again adds a slot. -/
structure Symbols where
  entries : Array Symbol
  deriving Repr, DecidableEq

namespace Symbols

def empty : Symbols := ⟨#[]⟩

def size (s : Symbols) : Nat := s.entries.size

def declare (s : Symbols) (name : String) (kind : SymbolKind) (span : Span) : Symbols :=
  ⟨s.entries.push ⟨name, kind, s.size, span⟩⟩

/-- The latest declaration of a name. -/
def lookup? (s : Symbols) (name : String) : Option Symbol :=
  s.entries.toList.reverse.find? (·.name = name)

def names (s : Symbols) : Array String := s.entries.map (·.name)

end Symbols

/-- What an earlier submission declared, and the record that holds its values. -/
structure Declared where
  record : Nat
  symbols : Symbols

inductive UnitKind where
  /-- The submission with this number, counted from one. -/
  | script (ordinal : Nat)
  | library (name : String)
  deriving Repr, DecidableEq

namespace UnitKind

/-- What stands before the point in the qualified names of a unit's functions. -/
def qualifier : UnitKind → String
  | script ordinal => s!"Submission#{ordinal}"
  | library name => name

/-- The record that a unit's entry routine fills. -/
def record? : UnitKind → Option Nat
  | script 0 => none
  | script (n + 1) => some n
  | library _ => none

def isScript : UnitKind → Bool
  | script _ => true
  | library _ => false

def qualified (k : UnitKind) (name : String) : String := k.qualifier ++ "." ++ name

/-- The name of the routine that runs the top level of a script. -/
def entryName? (k : UnitKind) : Option String :=
  if k.isScript then some (k.qualified "<Main>") else none

end UnitKind
end ScriptEngine
