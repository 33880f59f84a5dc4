import ScriptEngine.Intrinsic.Call
import ScriptEngine.Record
import ScriptEngine.Stack

/-! The stack machine. Calls share one operand stack; a frame knows how high the stack was when it was
    entered, and returning cuts the stack back to there. -/

namespace ScriptEngine

/-- A running function. -/
structure Frame where
  callee : Callable
  code : CodeModule
  routine : Routine
  pc : Nat
  locals : Array Value
  /-- The height of the stack below the function's operands. -/
  base : Nat

namespace Frame

def traceEntry (f : Frame) : TraceEntry := ⟨f.routine.name, f.routine.lineAt (f.pc - 1)⟩

/-- A function about to run. Its first locals are the arguments, the others are unit. -/
def enter (callee : Callable) (code : CodeModule) (routine : Routine) (args : List Value) (base : Nat) : Frame :=
  { callee := callee
    code := code
    routine := routine
    pc := 0
    locals := args.toArray ++ Array.replicate (routine.locals.toNat - args.length) .unit
    base := base }

end Frame

structure Machine where
  frame : Frame
  /-- The functions that wait for a call to return, the innermost first. -/
  callers : Stack Frame
  stack : Stack Value
  heap : Heap
  records : Records
  output : Array String
  /-- What was done so far: one for each instruction, and more for those that make long values. -/
  work : Nat

namespace Machine

structure Env where
  program : Program
  /-- The greatest number of functions that run at once. -/
  maxDepth : Nat

/-- What a step or a number of steps led to. -/
inductive Progress where
  | running (m : Machine)
  | sleeping (millis : Nat) (m : Machine)
  | finished (v : Value) (m : Machine)
  | faulted (e : RuntimeError) (m : Machine)

def view (env : Env) (m : Machine) : Value.View := .of env.program m.heap

def trace (m : Machine) : List TraceEntry := (m.frame :: m.callers.items).map Frame.traceEntry

def push (v : Value) (m : Machine) : Machine := { m with stack := m.stack.push v }

def drop (n : Nat) (m : Machine) : Machine := { m with stack := m.stack.drop n }

def jumpTo (target : Nat) (m : Machine) : Machine := { m with frame := { m.frame with pc := target } }

def advance (m : Machine) : Machine := { m.jumpTo (m.frame.pc + 1) with work := m.work + 1 }

/-- Account for work beside an instruction. -/
def charge (work : Nat) (m : Machine) : Machine := { m with work := m.work + work }

def setLocal (index : Nat) (v : Value) (m : Machine) : Machine :=
  { m with frame := { m.frame with locals := m.frame.locals.setIfInBounds index v } }

/-- The elements of a new list go to the heap, and the list to the stack. -/
def pushList (items : Array Value) (m : Machine) : Machine :=
  let (heap, id) := m.heap.alloc items
  { m with heap := heap, stack := m.stack.push (.list id) }

/-- The work of making a value: that of one instruction for every 64 bytes of a text or 4 elements of a
    list. -/
def workOf : Value.Made → Nat
  | .value (.text s) => s.utf8ByteSize / 64
  | .value _ => 0
  | .list items => items.size / 4

def pushMade (made : Value.Made) (m : Machine) : Machine :=
  match made with
  | .value v => (m.charge (workOf made)).push v
  | .list items => (m.charge (workOf made)).pushList items

def print (line : String) (m : Machine) : Machine := { m with output := m.output.push line }

def appendTo (id : Nat) (v : Value) (m : Machine) : Machine := { m with heap := m.heap.append id v }

def replaceIn (id position : Nat) (v : Value) (m : Machine) : Machine :=
  { m with heap := m.heap.replace id position v }

def invalid (fault : ProgramFault) (m : Machine) : Progress := .faulted (.invalidProgram fault) m

/-- Go on with what a check gave, or stop with its error. -/
def proceed {α : Type} (m : Machine) (result : Except RuntimeError α) (next : α → Machine → Progress) : Progress :=
  match result with
  | .ok x => next x m
  | .error e => .faulted e m

/-! ### Calls -/

def constantValue : Constant → Value
  | .int n => .int n
  | .float bits => .float (Float.ofBits bits)
  | .text s => .text s

/-- What is wrong with calling a value, or the frame to enter. -/
def calleeFrame (env : Env) (m : Machine) (callee : Value) (args : List Value) : Except RuntimeError Frame :=
  match callee with
  | .function c =>
    match env.program.module? c.home with
    | none => .error (.invalidProgram .function)
    | some code =>
      match code.functions[c.index]? with
      | none => .error (.invalidProgram .function)
      | some routine =>
        if routine.arity.toNat ≠ args.length then
          .error (.arityMismatch routine.shortName routine.arity.toNat args.length)
        else if env.maxDepth ≤ m.callers.height + 1 then .error (.stackOverflow env.maxDepth)
        else .ok (.enter c code routine args (m.stack.height - (args.length + 1)))
  | v => .error (.notCallable v.type)

/-- Enter a function whose arguments and callee are on the stack. -/
def call (env : Env) (argc : Nat) (m : Machine) : Progress :=
  match m.stack.items.drop argc with
  | [] => m.invalid .underflow
  | callee :: _ =>
    m.proceed (calleeFrame env m callee (m.stack.items.take argc).reverse) fun frame m =>
      .running { m with frame := frame, callers := m.callers.push m.frame, stack := m.stack.drop (argc + 1) }

def ret (m : Machine) : Progress :=
  match m.stack.items with
  | [] => m.invalid .underflow
  | v :: _ =>
    let stack := (m.stack.drop 1).cutTo m.frame.base
    match m.callers.items with
    | [] => .finished v { m with stack := stack }
    | caller :: _ =>
      .running { m with frame := caller, callers := m.callers.drop 1, stack := stack.push v }

/-- Do what an intrinsic asks for. -/
def answer (a : Intrinsic.Answer) (m : Machine) : Progress :=
  match a with
  | .value v => .running (m.push v)
  | .print line => .running ((m.print line).push .unit)
  | .push id v => .running ((m.appendTo id v).push .unit)
  | .sleep millis => .sleeping millis (m.push .unit)

def intrinsic (env : Env) (id : UInt8) (argc : Nat) (m : Machine) : Progress :=
  match Intrinsic.ofId? id with
  | none => m.invalid (.intrinsic id.toNat)
  | some i =>
    if m.stack.height < argc then m.invalid .underflow
    else
      m.proceed (i.call (m.view env) (m.stack.items.take argc).reverse) fun a m => answer a (m.drop argc)

/-! ### Instructions -/

/-- Carry out one instruction; the program counter is already past it. -/
def execute (env : Env) (m : Machine) : Instr → Progress
  | .const i =>
    match m.frame.routine.constants[i.toNat]? with
    | some c => .running (m.push (constantValue c))
    | none => m.invalid .constant
  | .unit => .running (m.push .unit)
  | .bool b => .running (m.push (.bool b))
  | .loadLocal i =>
    match m.frame.locals[i.toNat]? with
    | some v => .running (m.push v)
    | none => m.invalid .localVariable
  | .storeLocal i =>
    match m.stack.items with
    | v :: _ =>
      if i.toNat < m.frame.locals.size then .running ((m.drop 1).setLocal i.toNat v)
      else m.invalid .localVariable
    | [] => m.invalid .underflow
  | .loadSlot record i => m.proceed (m.records.load record.toNat i.toNat) fun v m => .running (m.push v)
  | .storeSlot record i =>
    match m.stack.items with
    | v :: _ =>
      m.proceed (m.records.store record.toNat i.toNat v) fun records m =>
        .running { m.drop 1 with records := records }
    | [] => m.invalid .underflow
  | .loadImport i =>
    match m.frame.code.imports[i.toNat]? with
    | some c => .running (m.push (.function c))
    | none => m.invalid .imported
  | .loadFunction i =>
    if i.toNat < m.frame.code.functions.size then
      .running (m.push (.function ⟨m.frame.callee.home, i.toNat⟩))
    else m.invalid .function
  | .openRecord =>
    match m.frame.code.record? with
    | some record => .running { m with records := m.records.start record m.frame.code.slots }
    | none => m.invalid (.noRecord m.frame.code.name)
  | .binary op =>
    match m.stack.items with
    | right :: left :: _ =>
      m.proceed (left.operate (m.view env) op right) fun made m => .running ((m.drop 2).pushMade made)
    | _ => m.invalid .underflow
  | .neg =>
    match m.stack.items with
    | v :: _ => m.proceed v.negate fun v m => .running ((m.drop 1).push v)
    | [] => m.invalid .underflow
  | .not =>
    match m.stack.items with
    | v :: _ => let b := v.isTrue m.heap; .running ((m.drop 1).push (.bool !b))
    | [] => m.invalid .underflow
  | .jump target => .running (m.jumpTo target.toNat)
  | .jumpIfFalse target =>
    match m.stack.items with
    | v :: _ => if v.isTrue m.heap then .running (m.drop 1) else .running ((m.drop 1).jumpTo target.toNat)
    | [] => m.invalid .underflow
  | .pop =>
    match m.stack.items with
    | _ :: _ => .running (m.drop 1)
    | [] => m.invalid .underflow
  | .call argc => call env argc.toNat m
  | .intrinsic id argc => intrinsic env id argc.toNat m
  | .makeList count =>
    if m.stack.height < count.toNat then m.invalid .underflow
    else
      let items := (m.stack.items.take count.toNat).reverse.toArray
      .running ((m.drop count.toNat).pushList items)
  | .index =>
    match m.stack.items with
    | index :: base :: _ =>
      m.proceed (Value.element m.heap base index) fun v m => .running ((m.drop 2).push v)
    | _ => m.invalid .underflow
  | .setIndex =>
    match m.stack.items with
    | v :: index :: base :: _ =>
      m.proceed (Value.assignTarget m.heap base index v) fun (id, position) m =>
        .running ((m.drop 3).replaceIn id position v)
    | _ => m.invalid .underflow
  | .ret => ret m

def step (env : Env) (m : Machine) : Progress :=
  match m.frame.routine.code[m.frame.pc]? with
  | some i => execute env m.advance i
  | none => m.invalid (.pastEnd m.frame.routine.name)

def run (env : Env) : Nat → Machine → Progress
  | 0, m => .running m
  | n + 1, m =>
    match step env m with
    | .running m => run env n m
    | p => p

/-- A machine about to run a function without parameters. -/
def start? (program : Program) (entry : Callable) (records : Records) (heap : Heap) : Option Machine := do
  let code ← program.module? entry.home
  let routine ← code.functions[entry.index]?
  return { frame := .enter entry code routine [] 0
           callers := .empty
           stack := .empty
           heap := heap
           records := records
           output := #[]
           work := 0 }

end Machine
end ScriptEngine
