import ScriptEngine.Session.Report

/-! Diagnostics as the console lists them: one to a line, with the place in bytes. -/

namespace ScriptEngine

def Severity.rank : Severity → String
  | error => "error"
  | warning => "warning"
  | info => "advice"

/-- What stands at the place of a message. -/
def Notice.label : Notice → String
  | badSyntax _ => "here"
  | unknownName _ | unknownMember .. | intrinsicValue _ => "not found"
  | unknownLibrary _ => "unknown namespace"
  | ambiguousImport .. => "ambiguous"
  | arityMismatch .. => "wrong number of arguments"
  | fixedAssign .. => "cannot assign twice"
  | strayLoopControl _ => "outside of a loop"
  | nestedFunction _ => "nested function"
  | duplicateFunction .. | duplicateParameter _ | functionRedeclared _ => "defined again here"
  | libraryStatement => "not a function"
  | unusedVariable _ => "never read"
  | unreachableCode => "unreachable"
  | divideByZero _ => "divides by zero"
  | implicitDeclaration _ => "declared here"

namespace Diagnostic

def listed (name : String) (d : Diagnostic) : String :=
  let place := s!"@{d.span.start}+{d.span.stop - d.span.start}"
  let help := match d.notice.help with
    | some text => s!" (help: {text})"
    | none => ""
  s!"{name}: {d.severity.rank} {d.notice.code}: {d.notice.message} {place} <{d.notice.label}>" ++ help

def listing (name : String) (ds : List Diagnostic) : String := String.join (ds.map fun d => d.listed name ++ "\n")

end Diagnostic
end ScriptEngine
