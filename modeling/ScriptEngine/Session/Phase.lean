import ScriptEngine.Span

/-! The stages of a submission. A session is idle between submissions. -/

namespace ScriptEngine

inductive Phase where
  | idle
  | referencesLoading
  | referencesReady
  | compiling
  | compileFailed
  | compiled
  | executing
  | executionFailed
  | executionSucceeded
  deriving Repr, DecidableEq

namespace Phase

def all : List Phase :=
  [idle, referencesLoading, referencesReady, compiling, compileFailed, compiled, executing, executionFailed,
   executionSucceeded]

def name : Phase → String
  | idle => "idle"
  | referencesLoading => "references-loading"
  | referencesReady => "references-ready"
  | compiling => "compiling"
  | compileFailed => "compile-failed"
  | compiled => "compiled"
  | executing => "executing"
  | executionFailed => "execution-failed"
  | executionSucceeded => "execution-succeeded"

/-- The second phase may follow the first. -/
def canEnter : Phase → Phase → Bool
  | idle, referencesLoading | idle, compiling => true
  | referencesLoading, referencesReady | referencesLoading, idle => true
  | referencesReady, compiling => true
  | compiling, compileFailed | compiling, compiled => true
  | compiled, executing => true
  | executing, executionFailed | executing, executionSucceeded => true
  | compileFailed, idle | executionFailed, idle | executionSucceeded, idle => true
  | _, _ => false

def next (p : Phase) : List Phase := all.filter p.canEnter

end Phase
end ScriptEngine
