import ScriptEngine.ScriptUnit

/-! The accepted submissions of a session. A submission that does not compile leaves them as they were. -/

namespace ScriptEngine

inductive CompileFailure where
  /-- All messages about the submission, of which at least one is an error. -/
  | rejected (diagnostics : List Diagnostic)
  | emit (error : EmitError) (diagnostics : List Diagnostic)

structure Compiled where
  unit : ScriptUnit
  executable : Executable
  diagnostics : List Diagnostic

structure Chain where
  /-- The accepted units, the newest first. -/
  units : List ScriptUnit
  /-- Libraries whose functions need no qualification. -/
  imports : List String

namespace Chain

def start (imports : List String) : Chain := ⟨[], imports⟩

def index (c : Chain) : Nat := c.units.length

def current? (c : Chain) : Option ScriptUnit := c.units.head?

/-- What the next submission can see of the earlier ones, the newest first. -/
def declared (c : Chain) : List Declared := c.units.filterMap ScriptUnit.declared?

def compile (c : Chain) (source : String) (refs : ReferenceSet) : Except CompileFailure Compiled :=
  match ScriptUnit.create (.script (c.index + 1)) source refs c.imports c.declared with
  | .error diagnostics => .error (.rejected diagnostics)
  | .ok unit =>
    if unit.hasErrors then .error (.rejected unit.diagnostics)
    else
      match Executable.ofUnit unit refs with
      | .error error => .error (.emit error unit.diagnostics)
      | .ok executable => .ok ⟨unit, executable, unit.diagnostics⟩

def accept (c : Chain) (accepted : Compiled) : Chain := { c with units := accepted.unit :: c.units }

end Chain
end ScriptEngine
