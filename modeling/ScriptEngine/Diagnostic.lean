import ScriptEngine.Tree
import ScriptEngine.Tree.SyntaxError
import ScriptEngine.Intrinsic

/-! What the compiler has to say about a fragment, tied to a place in its source. -/

namespace ScriptEngine

inductive Severity where
  | error
  | warning
  | info
  deriving Repr, DecidableEq

def Severity.label : Severity → String
  | error => "error"
  | warning => "warning"
  | info => "info"

inductive FixedTarget where
  | binding
  | function
  | imported
  deriving Repr, DecidableEq

def FixedTarget.describe : FixedTarget → String
  | binding => "immutable binding"
  | function => "function"
  | imported => "imported function"

inductive Notice where
  | badSyntax (cause : SyntaxCause)
  | unknownName (name : String)
  | unknownMember (library name : String)
  | intrinsicValue (i : Intrinsic)
  | unknownLibrary (name : String)
  | ambiguousImport (name : String) (libraries : List String)
  | arityMismatch (callee : String) (arity : Arity) (given : Nat)
  | fixedAssign (target : FixedTarget) (name : String)
  | strayLoopControl (keyword : Keyword)
  | nestedFunction (name : String)
  | duplicateFunction (name : String) (firstLine : Nat)
  | duplicateParameter (name : String)
  | functionRedeclared (name : String)
  | libraryStatement
  | unusedVariable (name : String)
  | unreachableCode
  | divideByZero (op : BinaryOp)
  | implicitDeclaration (name : String)
  deriving Repr

namespace Notice

def severity : Notice → Severity
  | unusedVariable _ | unreachableCode | divideByZero _ => .warning
  | implicitDeclaration _ => .info
  | _ => .error

def code : Notice → String
  | badSyntax _ => "prime.syntax"
  | unknownName _ | unknownMember .. | intrinsicValue _ => "prime.unknownSymbol"
  | unknownLibrary _ => "prime.unknownNamespace"
  | ambiguousImport .. => "prime.ambiguousImport"
  | arityMismatch .. => "prime.arityMismatch"
  | fixedAssign .. => "prime.immutableAssign"
  | strayLoopControl _ => "prime.loopControlOutsideLoop"
  | nestedFunction _ => "prime.nestedFunction"
  | duplicateFunction .. | duplicateParameter _ | functionRedeclared _ => "prime.duplicateDefinition"
  | libraryStatement => "prime.libraryStatement"
  | unusedVariable _ => "prime.unusedVariable"
  | unreachableCode => "prime.unreachableCode"
  | divideByZero _ => "prime.divideByZero"
  | implicitDeclaration _ => "prime.implicitDeclaration"

def message : Notice → String
  | badSyntax cause => cause.message
  | unknownName name => s!"cannot find `{name}` in this scope"
  | unknownMember library name => s!"`{library}` has no export named `{name}`"
  | intrinsicValue i => s!"intrinsic `{i.name}` can only be called directly"
  | unknownLibrary name => s!"no referenced library provides namespace `{name}`"
  | ambiguousImport name _ => s!"`{name}` is exported by more than one imported namespace"
  | arityMismatch callee arity given =>
    s!"`{callee}` takes {arity.describe} but {given} " ++ (if given = 1 then "was" else "were") ++ " supplied"
  | fixedAssign target name => s!"cannot assign to {target.describe} `{name}`"
  | strayLoopControl keyword => s!"`{keyword.spelling}` outside of a loop"
  | nestedFunction name => s!"function `{name}` must be declared at the top level"
  | duplicateFunction name _ => s!"function `{name}` is already defined"
  | duplicateParameter name => s!"parameter `{name}` is bound more than once"
  | functionRedeclared name => s!"`{name}` is already defined as a function"
  | libraryStatement => "libraries may only contain function declarations"
  | unusedVariable name => s!"unused variable `{name}`"
  | unreachableCode => "unreachable code"
  | divideByZero op => s!"this `{op.spelling}` always fails: the divisor is zero"
  | implicitDeclaration name => s!"`{name}` is implicitly declared as a session variable"

def help : Notice → Option String
  | badSyntax cause => cause.help
  | ambiguousImport name libraries =>
    some ("write " ++ " or ".intercalate (libraries.map fun l => s!"`{l}::{name}`"))
  | fixedAssign .binding name => some s!"declare it with `let mut {name}`"
  | nestedFunction _ => some "move the declaration out of the enclosing block"
  | duplicateFunction _ firstLine => some s!"previous definition on line {firstLine}"
  | unusedVariable name =>
    some s!"if this is intentional, prefix it with an underscore: `_{name}`"
  | divideByZero _ => some "evaluating it raises a division-by-zero fault"
  | _ => none

end Notice

structure Diagnostic where
  notice : Notice
  span : Span
  position : Position
  deriving Repr

namespace Diagnostic

def make (source : List Char) (notice : Notice) (span : Span) : Diagnostic :=
  ⟨notice, span, Position.ofOffset source span.start⟩

def ofSyntaxError (source : List Char) (e : SyntaxError) : Diagnostic :=
  make source (.badSyntax e.cause) e.span

def severity (d : Diagnostic) : Severity := d.notice.severity

/-- The message keeps the fragment from being compiled. -/
def isError (d : Diagnostic) : Bool := d.severity = .error

def render (d : Diagnostic) : String :=
  s!"({d.position.line},{d.position.column}): {d.severity.label}[{d.notice.code}]: " ++ d.notice.message

def renderAll (ds : List Diagnostic) : String := "\n".intercalate (ds.map render)

/-- Messages in the order of their places; messages about the same place keep their order. -/
def sort (ds : List Diagnostic) : List Diagnostic :=
  ds.mergeSort fun a b => a.span.start ≤ b.span.start

end Diagnostic
end ScriptEngine
