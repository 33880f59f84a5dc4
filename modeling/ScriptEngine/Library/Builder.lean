import ScriptEngine.ScriptUnit

/-! Building the image of a library from its source, a text of function declarations. A library sees
    its own functions and the intrinsics only. -/

namespace ScriptEngine

inductive LibraryError where
  | invalidName (name : String)
  | rejected (name : String) (diagnostics : List Diagnostic)
  | emit (name : String) (cause : EmitError)

namespace LibraryError

def message : LibraryError → String
  | invalidName name => s!"`{name}` cannot name a library"
  | rejected name diagnostics =>
    s!"library `{name}` does not compile:\n" ++ Diagnostic.renderAll diagnostics
  | emit name _ => s!"library `{name}` could not be emitted"

def chain : LibraryError → List String
  | emit name cause => message (emit name cause) :: cause.chain
  | e => [e.message]

end LibraryError

namespace Library

/-- A plain word that is not the name of the intrinsics. -/
def isValidName (name : String) : Bool :=
  match name.toList with
  | [] => false
  | c :: cs => Lexer.isWordStart c && cs.all Lexer.isWordPart && name ≠ Intrinsic.library

/-- The bytes of the library that a source text declares. -/
def build (name source : String) : Except LibraryError (List UInt8) :=
  if !isValidName name then .error (.invalidName name)
  else
    match ScriptUnit.create (.library name) source #[] [] [] with
    | .error diagnostics => .error (.rejected name diagnostics)
    | .ok unit =>
      if unit.hasErrors then .error (.rejected name unit.diagnostics)
      else
        match unit.image with
        | .error cause => .error (.emit name cause)
        | .ok image => .ok image.bytes

end Library
end ScriptEngine
