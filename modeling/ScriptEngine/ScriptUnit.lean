import ScriptEngine.Bound.Binder
import ScriptEngine.Bound.Lowering
import ScriptEngine.CodeModule.Loader
import ScriptEngine.Tree.Parser

/-! Units: fragments that were read and bound, and their compiled form. -/

namespace ScriptEngine

/-- A fragment that was read and bound. It may still have errors. -/
structure ScriptUnit where
  kind : UnitKind
  symbols : Symbols
  program : Bound.Program
  diagnostics : List Diagnostic

namespace ScriptUnit

def name (u : ScriptUnit) : String := u.kind.qualifier

/-- What later submissions can see of a unit. -/
def declared? (u : ScriptUnit) : Option Declared := u.kind.record?.map fun r => ⟨r, u.symbols⟩

def hasErrors (u : ScriptUnit) : Bool := u.diagnostics.any (·.isError)

/-- Read and bind a source text. Without a syntax tree there is no unit, only messages. -/
def create (kind : UnitKind) (source : String) (refs : ReferenceSet) (imports : List String)
    (earlier : List Declared) : Except (List Diagnostic) ScriptUnit :=
  let text := source.toList
  match Tree.Fragment.parse text with
  | .error errors => .error (errors.map (Diagnostic.ofSyntaxError text))
  | .ok tree =>
    let output := Binder.bind ⟨text, kind, earlier, refs, imports⟩ tree
    .ok ⟨kind, output.symbols, output.program, output.diagnostics⟩

def image (u : ScriptUnit) : Except EmitError Image := Lowering.image u.kind u.program

end ScriptUnit

structure Executable where
  code : CodeModule
  /-- The position of the entry routine. -/
  entry : Nat
  imageSize : Nat

namespace Executable

/-- Load the bytes of an image and find its entry routine. -/
def ofBytes (bytes : List UInt8) (refs : ReferenceSet) (entryName : String) : Except LoadError Executable := do
  let image ← Image.decode bytes
  let code ← CodeModule.load image refs
  let entry ← code.entry entryName
  return ⟨code, entry, bytes.length⟩

/-- Write the image of a unit and load it again. -/
def ofUnit (u : ScriptUnit) (refs : ReferenceSet) : Except EmitError Executable := do
  let image ← u.image
  let entryName := u.kind.entryName?.getD (u.kind.qualified "<Main>")
  match ofBytes image.bytes refs entryName with
  | .ok e => return e
  | .error cause => throw (.load cause)

end Executable
end ScriptEngine
