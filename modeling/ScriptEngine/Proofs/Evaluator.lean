import ScriptEngine.Memory
import ScriptEngine.Proofs.Layout

/-! What a bound program means. The evaluator follows the tree: operands are evaluated from left to right, the
    right side of a short-circuit operator only if it is needed. Every round of a loop and every call uses up
    fuel, and an evaluation that runs dry says nothing. -/

namespace ScriptEngine.Evaluator

/-- What a running function can change. -/
structure Store where
  locals : Array Value
  heap : Heap
  records : Records
  /-- The lines printed so far. -/
  output : Array String

/-- What a part of a program comes to. -/
inductive Outcome (α : Type) where
  | done (x : α) (s : Store)
  /-- The function returns. -/
  | ret (v : Value) (s : Store)
  /-- The innermost loop ends. -/
  | leave (s : Store)
  /-- The innermost loop goes on with its next round. -/
  | next (s : Store)
  | fault (e : RuntimeError) (s : Store)
  | dry

namespace Outcome

variable {α β : Type}

/-- Go on with the result, if there is one. -/
def bind (o : Outcome α) (f : α → Store → Outcome β) : Outcome β :=
  match o with
  | done x s => f x s
  | ret v s => ret v s
  | leave s => leave s
  | next s => next s
  | fault e s => fault e s
  | dry => dry

theorem bind_assoc {γ : Type} (o : Outcome α) (f : α → Store → Outcome β) (g : β → Store → Outcome γ) :
    (o.bind f).bind g = o.bind fun x s => (f x s).bind g := by
  cases o <;> rfl

def ofExcept (x : Except RuntimeError α) (s : Store) : Outcome α :=
  match x with
  | .ok a => done a s
  | .error e => fault e s

/-- What the program names has to be there. -/
def ofOption (x : Option α) (missing : ProgramFault) (s : Store) : Outcome α :=
  match x with
  | some a => done a s
  | none => fault (.invalidProgram missing) s

/-- The end of a function. The caller finds its own locals again. -/
def restoring (locals : Array Value) : Outcome Value → Outcome Value
  | done v t | ret v t => .done v { t with locals := locals }
  | o => o

end Outcome

/-- The bound units that a program can reach. -/
structure World where
  unit? : Home → Option Bound.Program
  /-- The function that an import stands for. -/
  resolve? : ImportRef → Option Callable
  /-- The greatest number of functions that run at once. -/
  maxDepth : Nat

namespace World

def function? (w : World) (c : Callable) : Option Bound.Func := do
  let p ← w.unit? c.home
  p.functions[c.index]?

/-- What is seen of values. -/
def view (w : World) (heap : Heap) : Value.View := ⟨heap, fun c => ((w.function? c).map (·.name)).getD ""⟩

end World

/-- What a function runs in. -/
structure Scope where
  world : World
  home : Home
  unit : Bound.Program
  fuel : Nat
  call : Value → List Value → Store → Outcome Value

/-! ### Operations -/

/-- A new value; the elements of a list go to the heap. -/
def make (made : Value.Made) (s : Store) : Outcome Value :=
  match made with
  | .value v => .done v s
  | .list items =>
    let (heap, id) := s.heap.alloc items
    .done (.list id) { s with heap := heap }

def load (place : Bound.Place) (s : Store) : Outcome Value :=
  match place with
  | .frame index => .ofOption s.locals[index]? .localVariable s
  | .slot record index => .ofExcept (s.records.load record index) s

def store (place : Bound.Place) (v : Value) (s : Store) : Outcome Unit :=
  match place with
  | .frame index =>
    if index < s.locals.size then .done () { s with locals := s.locals.setIfInBounds index v }
    else .fault (.invalidProgram .localVariable) s
  | .slot record index =>
    (Outcome.ofExcept (s.records.store record index v) s).bind fun records s => .done () { s with records := records }

def unary (op : UnaryOp) (v : Value) (s : Store) : Outcome Value :=
  match op with
  | .neg => .ofExcept v.negate s
  | .not => .done (.bool !(v.isTrue s.heap)) s

def setIndex (base position v : Value) (s : Store) : Outcome Unit :=
  (Outcome.ofExcept (Value.assignTarget s.heap base position v) s).bind fun (id, i) s =>
    .done () { s with heap := s.heap.replace id i v }

/-- Do what an intrinsic asks for. -/
def answer (a : Intrinsic.Answer) (s : Store) : Outcome Value :=
  match a with
  | .value v => .done v s
  | .print line => .done .unit { s with output := s.output.push line }
  | .push id v => .done .unit { s with heap := s.heap.append id v }
  | .sleep _ => .done .unit s

/-- Repeat a body as long as a condition holds. -/
def whileTrue (condition body : Store → Outcome Value) : Nat → Store → Outcome Unit
  | 0, _ => .dry
  | n + 1, s => (condition s).bind fun v s =>
    if v.isTrue s.heap then
      match body s with
      | .done _ s | .next s => whileTrue condition body n s
      | .leave s => .done () s
      | .ret v s => .ret v s
      | .fault e s => .fault e s
      | .dry => .dry
    else .done () s

namespace Scope

def function (sc : Scope) (index : Nat) (s : Store) : Outcome Value :=
  if index < sc.unit.functions.length then .done (.function ⟨sc.home, index⟩) s
  else .fault (.invalidProgram .function) s

def imported (sc : Scope) (index : Nat) (s : Store) : Outcome Value :=
  .ofOption ((sc.unit.imports[index]?.bind sc.world.resolve?).map .function) .imported s

def operate (sc : Scope) (op : Operator) (left right : Value) (s : Store) : Outcome Value :=
  (Outcome.ofExcept (left.operate (sc.world.view s.heap) op right) s).bind make

def intrinsic (sc : Scope) (i : Intrinsic) (args : List Value) (s : Store) : Outcome Value :=
  (Outcome.ofExcept (i.call (sc.world.view s.heap) args) s).bind answer

end Scope

/-! ### Trees -/

mutual

def expr (sc : Scope) : Bound.Expr → Store → Outcome Value
  | .unit, s => .done .unit s
  | .int n, s => .done (.int n) s
  | .float x, s => .done (.float x) s
  | .bool b, s => .done (.bool b) s
  | .text t, s => .done (.text t) s
  | .load place, s => load place s
  | .function index, s => sc.function index s
  | .imported index, s => sc.imported index s
  | .both left right, s => (expr sc left s).bind fun v s =>
    if v.isTrue s.heap then (expr sc right s).bind fun v s => .done (.bool (v.isTrue s.heap)) s
    else .done (.bool false) s
  | .either left right, s => (expr sc left s).bind fun v s =>
    if v.isTrue s.heap then .done (.bool true) s
    else (expr sc right s).bind fun v s => .done (.bool (v.isTrue s.heap)) s
  | .operate op left right, s =>
    (expr sc left s).bind fun l s => (expr sc right s).bind fun r s => sc.operate op l r s
  | .unary op operand, s => (expr sc operand s).bind fun v s => unary op v s
  | .call callee args, s => (expr sc callee s).bind fun f s => (exprs sc args s).bind fun vs s => sc.call f vs s
  | .intrinsic i args, s => (exprs sc args s).bind fun vs s => sc.intrinsic i vs s
  | .index base position, s =>
    (expr sc base s).bind fun b s => (expr sc position s).bind fun p s => .ofExcept (Value.element s.heap b p) s
  | .list items, s => (exprs sc items s).bind fun vs s => make (.list vs.toArray) s
  | .branch condition body otherwise, s => (expr sc condition s).bind fun v s =>
    if v.isTrue s.heap then block sc body s else block sc otherwise s
  | .block b, s => block sc b s

def exprs (sc : Scope) : List Bound.Expr → Store → Outcome (List Value)
  | [], s => .done [] s
  | e :: es, s => (expr sc e s).bind fun v s => (exprs sc es s).bind fun vs s => .done (v :: vs) s

def stmt (sc : Scope) : Bound.Stmt → Store → Outcome Unit
  | .store place value _, s => (expr sc value s).bind fun v s => store place v s
  | .setIndex base position value _, s => (expr sc base s).bind fun b s =>
    (expr sc position s).bind fun p s => (expr sc value s).bind fun v s => setIndex b p v s
  | .eval e _, s => (expr sc e s).bind fun _ s => .done () s
  | .ret value _, s => (expr sc value s).bind fun v s => .ret v s
  | .loop condition body _, s => whileTrue (expr sc condition) (block sc body) sc.fuel s
  | .leave _, s => .leave s
  | .next _, s => .next s

def stmts (sc : Scope) : List Bound.Stmt → Store → Outcome Unit
  | [], s => .done () s
  | first :: rest, s => (stmt sc first s).bind fun _ s => stmts sc rest s

def tail (sc : Scope) : Bound.Tail → Store → Outcome Value
  | .nothing, s => .done .unit s
  | .value e _, s => expr sc e s

def block (sc : Scope) : Bound.Block → Store → Outcome Value
  | .mk body last, s => (stmts sc body s).bind fun _ s => tail sc last s

end

/-! ### Functions -/

namespace Scope

/-- Store functions into the record of a submission. -/
def storeFunctions (sc : Scope) (record : Nat) : List Bound.FunctionSlot → Store → Outcome Unit
  | [], s => .done () s
  | f :: fs, s => (sc.function f.function s).bind fun v s =>
    (store (.slot record f.slot) v s).bind fun _ s => sc.storeFunctions record fs s

/-- What the function at a position does before its body. -/
def opening (sc : Scope) (index : Nat) (s : Store) : Outcome Unit :=
  match Lowering.opening? sc.unit index with
  | none => .done () s
  | some record =>
    sc.storeFunctions record sc.unit.functionSlots { s with records := s.records.start record sc.unit.slots }

/-- Run a function. The caller finds its own locals again. -/
def invoke (sc : Scope) (index : Nat) (f : Bound.Func) (args : List Value) (s : Store) : Outcome Value :=
  let locals := args.toArray ++ Array.replicate (f.locals - args.length) .unit
  match (sc.opening index { s with locals := locals }).bind fun _ s => block sc f.body s with
  | .done v t | .ret v t => .done v { t with locals := s.locals }
  | o => o

end Scope

/-- Call a value while so many functions wait. -/
def call (w : World) : Nat → Nat → Value → List Value → Store → Outcome Value
  | 0, _, _, _, _ => .dry
  | fuel + 1, depth, .function c, args, s =>
    match w.unit? c.home with
    | none => .fault (.invalidProgram .function) s
    | some p =>
      match p.functions[c.index]? with
      | none => .fault (.invalidProgram .function) s
      | some f =>
        if f.arity ≠ args.length then
          .fault (.arityMismatch (Routine.unqualified f.name) f.arity args.length) s
        else if w.maxDepth ≤ depth + 1 then .fault (.stackOverflow w.maxDepth) s
        else Scope.invoke ⟨w, c.home, p, fuel, call w fuel (depth + 1)⟩ c.index f args s
  | _ + 1, _, v, _, s => .fault (.notCallable v.type) s

/-- How an evaluation ended, and what it left. -/
structure Evaluation where
  outcome : Except RuntimeError Value
  output : List String
  heap : Heap
  records : Records

/-- How a run ended, but for the place of a fault. -/
def Evaluation.ofInvocation (done : Invocation) : Evaluation :=
  ⟨done.outcome.mapError Fault.error, done.machine.output.toList, done.machine.heap, done.machine.records⟩

/-- How a script ended, but for the place of a fault. -/
def Evaluation.ofCompletion (done : Completion) : Evaluation :=
  ⟨done.outcome.mapError Fault.error, done.output, done.memory.heap, done.memory.records⟩

/-- Evaluate a function without parameters; `none` if there is not enough fuel. -/
def World.evaluate (w : World) (entry : Callable) (records : Records) (heap : Heap) (fuel : Nat) : Option Evaluation := do
  let p ← w.unit? entry.home
  let f ← p.functions[entry.index]?
  match Scope.invoke ⟨w, entry.home, p, fuel, call w fuel 0⟩ entry.index f [] ⟨#[], heap, records, #[]⟩ with
  | .done v s => some ⟨.ok v, s.output.toList, s.heap, s.records⟩
  | .fault e s => some ⟨.error e, s.output.toList, s.heap, s.records⟩
  | _ => none

end ScriptEngine.Evaluator
