import ScriptEngine.Session.Report

/-! Sessions: submissions that build on each other. Sessions may share the cache of libraries, so it is
    handed from one submission to the next. -/

namespace ScriptEngine

structure SessionOptions where
  /-- Libraries whose functions need no qualification. -/
  imports : List String
  capacity : Nat
  invoke : InvokeOptions
  deriving Repr, DecidableEq

def SessionOptions.default : SessionOptions := ⟨Library.bundledNames, 2, .default⟩

structure Session where
  options : SessionOptions
  chain : Chain
  memory : Memory
  phase : Phase
  /-- The flag that stops the submission under way. -/
  cancelled : Bool

/-- What reaches a submission from outside while it is under way. -/
structure Interference where
  cancelLoading : Bool
  watch : Watch

/-- A session under way, and the phases that it went through. -/
structure Passage where
  session : Session
  path : List Phase

namespace Passage

def start (s : Session) : Passage := ⟨s, [s.phase]⟩

def enter (p : Passage) (next : Phase) : Passage := ⟨{ p.session with phase := next }, p.path ++ [next]⟩

/-- Enter a phase that only some submissions go through. -/
def enterIf (p : Passage) (condition : Bool) (next : Phase) : Passage := if condition then p.enter next else p

end Passage

/-- What an attempt to compile and run a submission came to. -/
structure Attempt where
  passage : Passage
  submission : Option Nat
  outcome : Outcome
  diagnostics : List Diagnostic
  output : List String

namespace Attempt

def failed (p : Passage) (outcome : Outcome) (diagnostics : List Diagnostic) : Attempt :=
  ⟨p, none, outcome, diagnostics, []⟩

/-- The session is idle again. -/
def finish (a : Attempt) : Report × Session :=
  let p := a.passage.enter .idle
  (⟨a.submission, a.outcome, a.diagnostics, a.output, p.path⟩, p.session)

end Attempt

namespace Session

def start (options : SessionOptions) : Session :=
  { options := options
    chain := .start options.imports
    memory := .withCapacity options.capacity
    phase := .idle
    cancelled := false }

def index (s : Session) : Nat := s.chain.index

def bindings (s : Session) : List (String × Value) := s.memory.bindings

def reset (s : Session) : Session :=
  { s with
    chain := .start s.options.imports
    memory := .withCapacity s.options.capacity
    phase := .idle }

/-- Ask the submission under way to stop. The next submission starts afresh. -/
def cancel (s : Session) : Session := { s with cancelled := true }

def rearm (s : Session) : Session := { s with cancelled := false }

/-- Accept a compiled submission and make room for its record. -/
def accept (s : Session) (c : Compiled) : Session :=
  { s with chain := s.chain.accept c, memory := s.memory.reserve (s.chain.index + 1) }

def execute (fuel : Nat) (watch : Watch) (refs : ReferenceSet) (c : Compiled) (p : Passage) : Option Attempt := do
  let p := p.enter .executing
  let s := p.session
  let done ← s.memory.run refs c.executable s.options.invoke watch fuel
  let p : Passage := { p with session := { s with memory := done.memory } }
  match done.outcome with
  | .ok value =>
    return ⟨p.enter .executionSucceeded, some s.index, .executed value, c.diagnostics, done.output⟩
  | .error fault =>
    return ⟨p.enter .executionFailed, some s.index, .executionFailed fault, c.diagnostics, done.output⟩

/-- Compile a submission, and run it if it is accepted. -/
def compile (fuel : Nat) (watch : Watch) (refs : ReferenceSet) (source : String) (p : Passage) : Option Attempt :=
  let p := p.enter .compiling
  match p.session.chain.compile source refs with
  | .error (.rejected diagnostics) => some (.failed (p.enter .compileFailed) .compileFailed diagnostics)
  | .error (.emit e diagnostics) => some (.failed (p.enter .compileFailed) (.emitFailed e) diagnostics)
  | .ok c =>
    let p := p.enter .compiled
    execute fuel watch refs c { p with session := p.session.accept c }

/-- Compile and run a submission under some interference; `none` if the script takes more slices than there
    is fuel. -/
def submitUnder (interference : Interference) (fuel : Nat) (supply : Supply) (cache : Cache) (s : Session)
    (source : String) : Option (Report × Session × Cache) := do
  let loading := !cache.isLoaded
  let p := (Passage.start s.rearm).enterIf loading .referencesLoading
  match cache.ensure supply interference.cancelLoading with
  | (.error e, cache) =>
    let (report, s) := (Attempt.failed p (.referencesFailed e) []).finish
    return (report, s, cache)
  | (.ok refs, cache) =>
    let attempt ← compile fuel interference.watch refs source (p.enterIf loading .referencesReady)
    let (report, s) := attempt.finish
    return (report, s, cache)

/-- Nothing but the session's own time limit. -/
def undisturbed (s : Session) : Interference := ⟨false, .ofOptions s.options.invoke false⟩

def submit (fuel : Nat) (supply : Supply) (cache : Cache) (s : Session) (source : String) :
    Option (Report × Session × Cache) :=
  submitUnder s.undisturbed fuel supply cache s source

end Session
end ScriptEngine
