import ScriptEngine.Invocation
import ScriptEngine.ScriptUnit

/-! What submissions leave behind for later ones: their code, their lists and their variables. -/

namespace ScriptEngine

structure Memory where
  program : Program
  heap : Heap
  records : Records

/-- How a script ended, the lines it printed, and the memory it left. -/
structure Completion where
  outcome : Except Fault Value
  output : List String
  memory : Memory

namespace Memory

def withCapacity (capacity : Nat) : Memory := ⟨⟨#[], #[]⟩, .empty, .withCapacity capacity⟩

def reserve (m : Memory) (count : Nat) : Memory := { m with records := m.records.ensure count }

/-- Add code that was linked against the given libraries. -/
def link (m : Memory) (refs : ReferenceSet) (code : CodeModule) : Memory :=
  { m with program := ⟨refs, m.program.fragments.push code⟩ }

def view (m : Memory) : Value.View := .of m.program m.heap

def bindings (m : Memory) : List (String × Value) := m.records.bindings

def after (m : Memory) (machine : Machine) : Memory :=
  { m with heap := machine.heap, records := machine.records }

/-- Run a script that was linked against the given libraries; `none` if there is not enough fuel. -/
def run (m : Memory) (refs : ReferenceSet) (e : Executable) (options : InvokeOptions) (watch : Watch)
    (fuel : Nat) : Option Completion := do
  let callee : Callable := ⟨.fragment m.program.fragments.size, e.entry⟩
  let m := m.link refs e.code
  let machine ← Machine.start? m.program callee m.records m.heap
  let done ← Invocation.run m.program options watch fuel machine
  return ⟨done.outcome, done.machine.output.toList, m.after done.machine⟩

end Memory
end ScriptEngine
