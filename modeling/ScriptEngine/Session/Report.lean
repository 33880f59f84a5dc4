import ScriptEngine.Chain
import ScriptEngine.Library.Cache
import ScriptEngine.Memory
import ScriptEngine.Session.Phase

/-! What comes of a submission. -/

namespace ScriptEngine

inductive Outcome where
  | executed (value : Value)
  | referencesFailed (error : ReferenceError)
  | compileFailed
  | emitFailed (error : EmitError)
  | executionFailed (fault : Fault)

def Outcome.label : Outcome → String
  | executed _ => "executed"
  | referencesFailed _ => "references-failed"
  | compileFailed => "compile-failed"
  | emitFailed _ => "emit-failed"
  | executionFailed _ => "execution-failed"

structure Report where
  submission : Option Nat
  outcome : Outcome
  diagnostics : List Diagnostic
  output : List String
  phases : List Phase

namespace Report

def isSuccess (r : Report) : Bool :=
  match r.outcome with
  | .executed _ => true
  | _ => false

/-- The session went on by a submission, even if running it failed. -/
def isAccepted (r : Report) : Bool := r.submission.isSome

/-- Why the submission did not run to its end, unless the diagnostics say it. -/
def failure? (r : Report) : Option String :=
  match r.outcome with
  | .executed _ | .compileFailed => none
  | .referencesFailed e => some (explain e.chain)
  | .emitFailed e => some ("emit error: " ++ explain e.chain)
  | .executionFailed f => some f.render

/-- The diagnostics, then the failure. -/
def render (r : Report) : String :=
  let listing := if r.diagnostics.isEmpty then [] else [Diagnostic.renderAll r.diagnostics]
  "\n".intercalate (listing ++ r.failure?.toList)

end Report
end ScriptEngine
