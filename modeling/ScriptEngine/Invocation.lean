import ScriptEngine.Machine

/-! Running an entry routine to its end. The machine runs in slices; between two slices the run can be
    cancelled or time out. -/

namespace ScriptEngine

structure InvokeOptions where
  timeout : Option Nat
  slice : Nat
  maxCallDepth : Nat
  deriving Repr, DecidableEq

def InvokeOptions.default : InvokeOptions := ⟨none, 4096, 512⟩

inductive Interrupt where
  | cancelled
  | timedOut (millis : Nat)
  deriving Repr, DecidableEq

def Interrupt.error : Interrupt → RuntimeError
  | cancelled => .cancelled
  | timedOut millis => .timedOut millis

/-- Decides before a slice whether the run is stopped, from the work that was done and the milliseconds
    that were slept. -/
abbrev Watch := (work slept : Nat) → Option Interrupt

/-- The work that counts as one millisecond. Time is told by the work, so that a run can be repeated. -/
def workPerMilli : Nat := 20000

/-- The watch of a run: a cancelled run does not start, and the time limit is looked at after every
    slice and every sleep. -/
def Watch.ofOptions (options : InvokeOptions) (cancelled : Bool) : Watch := fun work slept =>
  if cancelled then some .cancelled
  else
    match options.timeout with
    | none => none
    | some limit =>
      if 0 < work ∧ limit ≤ slept + work / workPerMilli then some (.timedOut limit) else none

/-- How a run ended, and the machine as it left it. -/
structure Invocation where
  outcome : Except Fault Value
  machine : Machine

namespace Invocation

def fault (e : RuntimeError) (m : Machine) : Invocation := ⟨.error ⟨e, m.trace⟩, m⟩

/-- Run slices until the run ends; `none` if that takes more slices than there is fuel. -/
def drive (env : Machine.Env) (slice : Nat) (watch : Watch) : Nat → Nat → Machine → Option Invocation
  | 0, _, _ => none
  | fuel + 1, slept, m =>
    match watch m.work slept with
    | some interrupt => some (fault interrupt.error m)
    | none =>
      match Machine.run env slice m with
      | .running m => drive env slice watch fuel slept m
      | .sleeping millis m => drive env slice watch fuel (slept + millis) m
      | .finished v m => some ⟨.ok v, m⟩
      | .faulted e m => some (fault e m)

def run (program : Program) (options : InvokeOptions) (watch : Watch) (fuel : Nat) (m : Machine) :
    Option Invocation :=
  drive ⟨program, max options.maxCallDepth 1⟩ (max options.slice 1) watch fuel 0 m

/-- More slices than any run of this world takes. -/
def endlessFuel : Nat := 4611686018427387904

end Invocation
end ScriptEngine
