import ScriptEngine.Proofs.Evaluator
import ScriptEngine.Proofs.FloatBits
import ScriptEngine.Proofs.LoopControl
import ScriptEngine.Proofs.MachineSteps

/-! The machine does what the evaluator says. `Reaches` ties what an evaluation comes to to the steps of a
    machine: where they lead, what is on the stack there, and that an evaluation that ran dry stands for at
    least as many steps as there was fuel. It is proved for every part of a bound tree whose code stands in
    the running routine, by induction on the tree, and for calls by induction on the fuel. -/

namespace ScriptEngine.Machine
open Lowering Evaluator

/-! ### Machines and stores -/

/-- A call under way: what it runs, and what waits below it. -/
structure Activation where
  callee : Callable
  code : CodeModule
  routine : Routine
  base : Nat
  callers : Stack Frame

def Activation.frame (a : Activation) (pc : Nat) (locals : Array Value) : Frame :=
  ⟨a.callee, a.code, a.routine, pc, locals, a.base⟩

/-- The machine holds what the store says, the locals apart. -/
def Holds (s : Store) (m : Machine) : Prop := m.heap = s.heap ∧ m.records = s.records ∧ m.output = s.output

/-- The machine comes next to the instruction at `pc` in a call, with the given operands on the stack. -/
structure Poised (a : Activation) (pc : Nat) (stack : List Value) (s : Store) (m : Machine) : Prop where
  frame : m.frame = a.frame pc s.locals
  callers : m.callers = a.callers
  stack : m.stack.items = stack
  holds : m.Holds s

section
variable {env : Env} {a : Activation} {pc : Nat} {stack : List Value} {s : Store} {m : Machine} {v : Value}

theorem Poised.cast {pc' : Nat} (h : Poised a pc stack s m) (hpc : pc = pc') : Poised a pc' stack s m := hpc ▸ h

theorem Poised.advance (h : Poised a pc stack s m) : Poised a (pc + 1) stack s m.advance := by
  refine ⟨?_, h.callers, h.stack, h.holds⟩
  rw [Machine.advance, jumpTo, h.frame]
  rfl

theorem Poised.step (h : Poised a pc stack s m) {i : Instr} (hi : a.routine.Holds pc i) :
    step env m = execute env m.advance i := by
  have hi : m.frame.routine.code[m.frame.pc]? = some i := by
    rw [h.frame]
    exact hi
  rw [Machine.step, hi]

theorem Poised.push (h : Poised a pc stack s m) (v : Value) : Poised a pc (v :: stack) s (m.push v) :=
  ⟨h.frame, h.callers, congrArg (v :: ·) h.stack, h.holds⟩

theorem Poised.drop (top : List Value) (h : Poised a pc (top ++ stack) s m) : Poised a pc stack s (m.drop top.length) := by
  refine ⟨h.frame, h.callers, ?_, h.holds⟩
  rw [Machine.drop, Stack.items_drop, h.stack, List.drop_left]

theorem Poised.jumpTo (h : Poised a pc stack s m) (target : Nat) : Poised a target stack s (m.jumpTo target) := by
  refine ⟨?_, h.callers, h.stack, h.holds⟩
  rw [Machine.jumpTo, h.frame]
  rfl

theorem Poised.charge (h : Poised a pc stack s m) (work : Nat) : Poised a pc stack s (m.charge work) :=
  ⟨h.frame, h.callers, h.stack, h.holds⟩

theorem Poised.setLocal (h : Poised a pc stack s m) (index : Nat) (v : Value) :
    Poised a pc stack { s with locals := s.locals.setIfInBounds index v } (m.setLocal index v) := by
  refine ⟨?_, h.callers, h.stack, h.holds⟩
  rw [Machine.setLocal, h.frame]
  rfl

theorem Poised.setHeap (h : Poised a pc stack s m) (heap : Heap) :
    Poised a pc stack { s with heap := heap } { m with heap := heap } :=
  ⟨h.frame, h.callers, h.stack, rfl, h.holds.2⟩

theorem Poised.setRecords (h : Poised a pc stack s m) (records : Records) :
    Poised a pc stack { s with records := records } { m with records := records } :=
  ⟨h.frame, h.callers, h.stack, h.holds.1, rfl, h.holds.2.2⟩

theorem Poised.print (h : Poised a pc stack s m) (line : String) :
    Poised a pc stack { s with output := s.output.push line } (m.print line) :=
  ⟨h.frame, h.callers, h.stack, h.holds.1, h.holds.2.1, congrArg (·.push line) h.holds.2.2⟩

end

/-! ### One instruction -/

/-- What a single step leads to is what the evaluator says. -/
def Shows {α : Type} (p : Progress) (arrive : α → Store → Machine → Prop) : Evaluator.Outcome α → Prop
  | .done x s => ∃ m', p.next? = some m' ∧ arrive x s m'
  | .fault e s => ∃ m', p = .faulted e m' ∧ m'.Holds s
  | _ => False

section
variable {env : Env} {a : Activation} {pc : Nat} {stack : List Value} {s : Store} {m : Machine} {v : Value} {α β : Type}
  {arrive : α → Store → Machine → Prop}

theorem shows_running {x : α} {m' : Machine} (h : arrive x s m') : Shows (.running m') arrive (.done x s) := ⟨m', rfl, h⟩

theorem shows_invalid {cause : ProgramFault} (h : m.Holds s) :
    Shows (m.invalid cause) arrive (.fault (.invalidProgram cause) s) := ⟨m, rfl, h⟩

theorem shows_proceed {x : Except RuntimeError β} {next : β → Machine → Progress} {f : β → Store → Evaluator.Outcome α}
    (h : m.Holds s) (hnext : ∀ y, x = .ok y → Shows (next y m) arrive (f y s)) :
    Shows (m.proceed x next) arrive ((Evaluator.Outcome.ofExcept x s).bind f) := by
  cases x with
  | error e => exact ⟨m, rfl, h⟩
  | ok y => exact hnext y rfl

theorem shows_check {x : Except RuntimeError α} {next : α → Machine → Progress} (h : m.Holds s)
    (hnext : ∀ y, x = .ok y → Shows (next y m) arrive (.done y s)) :
    Shows (m.proceed x next) arrive (Evaluator.Outcome.ofExcept x s) := by
  cases x with
  | error e => exact ⟨m, rfl, h⟩
  | ok y => exact hnext y rfl

end

/-! ### Runs -/

/-- A machine is in a call that these callers wait for, or in a function that was called from it. -/
def Inside (callers : List Frame) (m : Machine) : Prop := callers <:+ m.callers.items

/-- Steps that are all taken inside a call. -/
inductive Course (env : Env) (callers : List Frame) : Nat → Machine → Machine → Prop where
  | refl (m : Machine) : Course env callers 0 m m
  | step {n : Nat} {m m' m'' : Machine} (inside : Inside callers m) (first : Next env m m')
      (rest : Course env callers n m' m'') : Course env callers (n + 1) m m''

namespace Course

variable {env : Env} {callers : List Frame} {n k : Nat} {m m' m'' : Machine}

theorem one (inside : Inside callers m) (h : Next env m m') : Course env callers 1 m m' := .step inside h (.refl m')

theorem trans (h : Course env callers n m m') (h' : Course env callers k m' m'') : Course env callers (n + k) m m'' := by
  induction h with
  | refl m => rwa [Nat.zero_add]
  | step inside first _ ih =>
    rw [Nat.add_right_comm]
    exact .step inside first (ih h')

theorem steps (h : Course env callers n m m') : Steps env n m m' := by
  induction h with
  | refl m => exact .refl m
  | step _ first _ ih => exact .step first ih

/-- What is inside a call is inside the calls that it was made from. -/
theorem widen {outer : List Frame} (deeper : outer <:+ callers) (h : Course env callers n m m') : Course env outer n m m' := by
  induction h with
  | refl m => exact .refl m
  | step inside first _ ih => exact .step (deeper.trans inside) first ih

/-- A run that ends inside a call does not leave it before. -/
theorem stays (h : Course env callers n m m') (left : ¬ Inside callers m') (h' : Course env callers k m m'')
    (inside : Inside callers m'') : (Machine.step env m'').next? ≠ none := by
  intro hend
  induction h generalizing k with
  | refl m =>
    cases h' with
    | refl => exact left inside
    | step inside _ _ => exact left inside
  | step _ first _ ih =>
    cases h' with
    | refl =>
      rw [Next, hend] at first
      cases first
    | step _ first' rest =>
      obtain rfl := first.unique first'
      exact ih left rest

end Course

theorem Poised.inside {a : Activation} {pc : Nat} {stack : List Value} {s : Store} {m : Machine} (h : Poised a pc stack s m) :
    Inside a.callers.items m := ⟨[], congrArg Stack.items h.callers.symm⟩

/-- What an evaluation comes to is where steps from a machine lead, which are taken inside the call: to a machine that
    `arrive` describes, to a return with the value on top, to a target of the innermost loop with the stack as it was, or to
    an error. Jumps out of the loop happen only where no operands are pending. -/
def Reaches {α : Type} (env : Env) (a : Activation) (loop : Option LoopTargets) (pending : Bool) (stack : List Value)
    (fuel : Nat) (m : Machine) (arrive : α → Store → Machine → Prop) : Evaluator.Outcome α → Prop
  | .done x s => ∃ k m', Course env a.callers.items k m m' ∧ arrive x s m'
  | .ret v s => ∃ k m' pc above, Course env a.callers.items k m m' ∧ a.routine.Holds pc .ret ∧
      Poised a pc (v :: (above ++ stack)) s m'
  | .leave s => pending = false ∧ ∃ k m' targets, Course env a.callers.items k m m' ∧ loop = some targets ∧
      Poised a targets.exit stack s m'
  | .next s => pending = false ∧ ∃ k m' targets, Course env a.callers.items k m m' ∧ loop = some targets ∧
      Poised a targets.start stack s m'
  | .fault e s => ∃ k m' m'', Course env a.callers.items k m m' ∧ step env m' = .faulted e m'' ∧ m''.Holds s ∧
      Inside a.callers.items m'
  | .dry => ∃ k m', Course env a.callers.items k m m' ∧ fuel ≤ k

namespace Reaches

variable {env : Env} {a : Activation} {loop : Option LoopTargets} {pending : Bool} {stack : List Value} {fuel : Nat}
  {m m' : Machine} {α β : Type} {arrive : α → Store → Machine → Prop} {arrive' : β → Store → Machine → Prop}
  {o : Evaluator.Outcome α}

/-- Steps before a run belong to it. -/
theorem after {k : Nat} (steps : Course env a.callers.items k m m') (h : Reaches env a loop pending stack fuel m' arrive o) :
    Reaches env a loop pending stack (k + fuel) m arrive o := by
  cases o with
  | done x s =>
    obtain ⟨j, m₁, more, h⟩ := h
    exact ⟨k + j, m₁, steps.trans more, h⟩
  | ret v s =>
    obtain ⟨j, m₁, pc, above, more, h⟩ := h
    exact ⟨k + j, m₁, pc, above, steps.trans more, h⟩
  | leave s | next s =>
    obtain ⟨hpending, j, m₁, targets, more, h⟩ := h
    exact ⟨hpending, k + j, m₁, targets, steps.trans more, h⟩
  | fault e s =>
    obtain ⟨j, m₁, m₂, more, h⟩ := h
    exact ⟨k + j, m₁, m₂, steps.trans more, h⟩
  | dry =>
    obtain ⟨j, m₁, more, h⟩ := h
    exact ⟨k + j, m₁, steps.trans more, by omega⟩

theorem mono {fuel' : Nat} (h : Reaches env a loop pending stack fuel m arrive o) (hle : fuel' ≤ fuel) :
    Reaches env a loop pending stack fuel' m arrive o := by
  cases o with
  | dry =>
    obtain ⟨k, m₁, steps, h⟩ := h
    exact ⟨k, m₁, steps, Nat.le_trans hle h⟩
  | done x s | ret v s | leave s | next s | fault e s => exact h

theorem bind {f : α → Store → Evaluator.Outcome β} (h : Reaches env a loop pending stack fuel m arrive o)
    (hf : ∀ x s m, arrive x s m → Reaches env a loop pending stack fuel m arrive' (f x s)) :
    Reaches env a loop pending stack fuel m arrive' (o.bind f) := by
  cases o with
  | done x s =>
    obtain ⟨k, m₁, steps, h⟩ := h
    exact ((hf x s m₁ h).after steps).mono (Nat.le_add_left fuel k)
  | ret v s | leave s | next s | fault e s | dry => exact h

/-- An operand that was pushed is pending: the evaluation above it does not jump out of the loop, and a return
    may leave it where it is. -/
theorem above (top : List Value) (h : Reaches env a loop true (top ++ stack) fuel m arrive o) :
    Reaches env a loop pending stack fuel m arrive o := by
  cases o with
  | ret v s =>
    obtain ⟨k, m₁, pc, above, steps, hret, h⟩ := h
    refine ⟨k, m₁, pc, above ++ top, steps, hret, ?_⟩
    rwa [List.append_assoc]
  | leave s | next s => cases h.1
  | done x s | fault e s | dry => exact h

/-- More steps after the arrival. -/
theorem onward {arrive' : α → Store → Machine → Prop} (h : Reaches env a loop pending stack fuel m arrive o)
    (hmore : ∀ x s m, arrive x s m → Inside a.callers.items m ∧ ∃ m', Next env m m' ∧ arrive' x s m') :
    Reaches env a loop pending stack fuel m arrive' o := by
  cases o with
  | done x s =>
    obtain ⟨k, m₁, steps, h⟩ := h
    obtain ⟨inside, m₂, next, h⟩ := hmore x s m₁ h
    exact ⟨k + 1, m₂, steps.trans (.one inside next), h⟩
  | ret v s | leave s | next s | fault e s | dry => exact h

theorem done {x : α} {s : Store} (h : arrive x s m) : Reaches env a loop pending stack fuel m arrive (.done x s) :=
  ⟨0, m, .refl m, h⟩

/-- A single step. -/
theorem of_shows {pc : Nat} {operands : List Value} {s : Store} {i : Instr} (h : Poised a pc operands s m)
    (hi : a.routine.Holds pc i) (hshows : Shows (execute env m.advance i) arrive o) :
    Reaches env a loop pending stack fuel m arrive o := by
  rw [← h.step hi] at hshows
  cases o with
  | done x s =>
    obtain ⟨m', hnext, harrive⟩ := hshows
    exact ⟨1, m', .one h.inside hnext, harrive⟩
  | fault e s =>
    obtain ⟨m', hstep, hholds⟩ := hshows
    exact ⟨0, m, m', .refl m, hstep, hholds, h.inside⟩
  | ret v s | leave s | next s | dry => exact hshows.elim

end Reaches

/-! ### Instructions -/

/-- The code that a call runs is that of the unit that the evaluator works on. -/
structure Suits (env : Env) (sc : Scope) (a : Activation) : Prop where
  home : a.callee.home = sc.home
  view : ∀ heap, Value.View.of env.program heap = sc.world.view heap
  functions : a.code.functions.size = sc.unit.functions.length
  imports : ∀ i : Nat, a.code.imports[i]? = sc.unit.imports[i]?.bind sc.world.resolve?
  slots : a.code.slots = sc.unit.slots
  record : ∀ record, sc.unit.record = some record → a.code.record? = some record
  call : ∀ {loop : Option LoopTargets} {pending : Bool} {pc : Nat} {argc : UInt8} {callee : Value} {args stack : List Value}
    {s : Store} {m : Machine}, a.routine.Holds pc (.call argc) → argc.toNat = args.length →
    Poised a pc (args.reverse ++ callee :: stack) s m →
    Reaches env a loop pending stack sc.fuel m (fun v => Poised a (pc + 1) (v :: stack)) (sc.call callee args s)

section
variable {env : Env} {sc : Scope} {a : Activation} {loop : Option LoopTargets} {pending : Bool}
  {stack base : List Value} {fuel pc : Nat} {s : Store} {m : Machine}

theorem Poised.pushes {i : Instr} {v : Value} (h : Poised a pc stack s m) (hi : a.routine.Holds pc i)
    (hexec : execute env m.advance i = .running (m.advance.push v)) :
    Reaches env a loop pending base fuel m (fun v => Poised a (pc + 1) (v :: stack)) (.done v s) := by
  refine .of_shows h hi ?_
  rw [hexec]
  exact shows_running (h.advance.push v)

theorem Poised.constant {c : Constant} (h : Poised a pc stack s m) (hi : a.routine.ConstantAt pc c) :
    Reaches env a loop pending base fuel m (fun v => Poised a (pc + 1) (v :: stack)) (.done (constantValue c) s) := by
  obtain ⟨i, hi, hc⟩ := hi
  refine h.pushes hi ?_
  have hc : m.advance.frame.routine.constants[i.toNat]? = some c := by
    rw [h.advance.frame]
    exact hc
  simp only [execute, hc]

theorem Poised.load {place : Bound.Place} (h : Poised a pc stack s m) (hi : a.routine.LoadsAt pc place) :
    Reaches env a loop pending base fuel m (fun v => Poised a (pc + 1) (v :: stack)) (load place s) := by
  cases place with
  | frame index =>
    obtain ⟨i, hi, rfl⟩ := hi
    refine .of_shows h hi ?_
    simp only [execute, Evaluator.load, h.advance.frame, Activation.frame]
    cases s.locals[i.toNat]? with
    | none => exact shows_invalid h.advance.holds
    | some v => exact shows_running (h.advance.push v)
  | slot record index =>
    obtain ⟨w, i, hi, rfl, rfl⟩ := hi
    refine .of_shows h hi ?_
    simp only [execute, Evaluator.load]
    rw [h.advance.holds.2.1]
    exact shows_check h.advance.holds fun v _ => shows_running (h.advance.push v)

theorem Poised.store {place : Bound.Place} {v : Value} (h : Poised a pc (v :: stack) s m)
    (hi : a.routine.StoresAt pc place) :
    Reaches env a loop pending base fuel m (fun _ => Poised a (pc + 1) stack) (store place v s) := by
  have dropped : Poised a (pc + 1) stack s (m.advance.drop 1) := .drop [v] h.advance
  cases place with
  | frame index =>
    obtain ⟨i, hi, rfl⟩ := hi
    refine .of_shows h hi ?_
    simp only [execute, Evaluator.store, h.advance.stack, h.advance.frame, Activation.frame]
    split
    · exact shows_running (dropped.setLocal i.toNat v)
    · exact shows_invalid h.advance.holds
  | slot record index =>
    obtain ⟨w, i, hi, rfl, rfl⟩ := hi
    refine .of_shows h hi ?_
    simp only [execute, Evaluator.store, h.advance.stack]
    rw [h.advance.holds.2.1]
    exact shows_proceed h.advance.holds fun records _ => shows_running (dropped.setRecords records)

theorem Poised.function {i : UInt16} (h : Poised a pc stack s m) (suits : Suits env sc a)
    (hi : a.routine.Holds pc (.loadFunction i)) :
    Reaches env a loop pending base fuel m (fun v => Poised a (pc + 1) (v :: stack)) (sc.function i.toNat s) := by
  refine .of_shows h hi ?_
  simp only [execute, Scope.function, h.advance.frame, Activation.frame, suits.functions, suits.home]
  split
  · exact shows_running (h.advance.push _)
  · exact shows_invalid h.advance.holds

theorem Poised.imported {i : UInt16} (h : Poised a pc stack s m) (suits : Suits env sc a)
    (hi : a.routine.Holds pc (.loadImport i)) :
    Reaches env a loop pending base fuel m (fun v => Poised a (pc + 1) (v :: stack)) (sc.imported i.toNat s) := by
  refine .of_shows h hi ?_
  simp only [execute, Scope.imported, h.advance.frame, Activation.frame, suits.imports]
  cases sc.unit.imports[i.toNat]?.bind sc.world.resolve? with
  | none => exact shows_invalid h.advance.holds
  | some c => exact shows_running (h.advance.push _)

theorem Poised.view (h : Poised a pc stack s m) (suits : Suits env sc a) : m.view env = sc.world.view s.heap := by
  rw [Machine.view, h.holds.1]
  exact suits.view s.heap

theorem Poised.make (h : Poised a pc stack s m) (made : Value.Made) :
    Shows (.running (m.pushMade made)) (fun v => Poised a pc (v :: stack)) (make made s) := by
  cases made with
  | value v => exact shows_running ((h.charge _).push v)
  | list items =>
    simp only [pushMade, Evaluator.make, pushList, ← h.holds.1]
    exact shows_running (((h.charge _).setHeap _).push _)

theorem Poised.operate {op : Operator} {l r : Value} (h : Poised a pc (r :: l :: stack) s m) (suits : Suits env sc a)
    (hi : a.routine.Holds pc (.binary op)) :
    Reaches env a loop pending base fuel m (fun v => Poised a (pc + 1) (v :: stack)) (sc.operate op l r s) := by
  refine .of_shows h hi ?_
  simp only [execute, Scope.operate, h.advance.stack]
  rw [h.advance.view suits]
  exact shows_proceed h.advance.holds fun made _ => Poised.make (h.advance.drop [r, l]) made

theorem Poised.unary {op : UnaryOp} {v : Value} (h : Poised a pc (v :: stack) s m)
    (hi : a.routine.Holds pc (unaryInstr op)) :
    Reaches env a loop pending base fuel m (fun v => Poised a (pc + 1) (v :: stack)) (unary op v s) := by
  have dropped : Poised a (pc + 1) stack s (m.advance.drop 1) := h.advance.drop [v]
  refine .of_shows h hi ?_
  cases op with
  | neg =>
    simp only [unaryInstr, execute, Evaluator.unary, h.advance.stack]
    exact shows_check h.advance.holds fun w _ => shows_running (dropped.push w)
  | not =>
    simp only [unaryInstr, execute, Evaluator.unary, h.advance.stack, h.advance.holds.1]
    exact shows_running (dropped.push _)

theorem Poised.answer (h : Poised a pc stack s m) (answer : Intrinsic.Answer) :
    Shows (Machine.answer answer m) (fun v => Poised a pc (v :: stack)) (Evaluator.answer answer s) := by
  cases answer with
  | value v => exact shows_running (h.push v)
  | print line => exact shows_running ((h.print line).push _)
  | push id v =>
    simp only [Machine.answer, Evaluator.answer, appendTo, ← h.holds.1]
    exact shows_running ((h.setHeap _).push _)
  | sleep millis => exact ⟨_, rfl, h.push _⟩

theorem Poised.intrinsic {i : Intrinsic} {argc : UInt8} {args : List Value} (h : Poised a pc (args.reverse ++ stack) s m)
    (suits : Suits env sc a) (hi : a.routine.Holds pc (.intrinsic i.id argc)) (hargc : argc.toNat = args.length) :
    Reaches env a loop pending base fuel m (fun v => Poised a (pc + 1) (v :: stack)) (sc.intrinsic i args s) := by
  have hlength : args.reverse.length = argc.toNat := by rw [List.length_reverse, hargc]
  have hroom : ¬ m.advance.stack.height < argc.toNat := by
    rw [m.advance.stack.height_eq, h.advance.stack, List.length_append, hlength]
    omega
  refine .of_shows h hi ?_
  simp only [execute, Machine.intrinsic, Intrinsic.ofId?_id, Scope.intrinsic]
  rw [if_neg hroom, h.advance.view suits, h.advance.stack, List.take_left' hlength, List.reverse_reverse]
  refine shows_proceed h.advance.holds fun answer _ => Poised.answer ?_ answer
  rw [← hlength]
  exact h.advance.drop args.reverse

theorem Poised.index {b p : Value} (h : Poised a pc (p :: b :: stack) s m) (hi : a.routine.Holds pc .index) :
    Reaches env a loop pending base fuel m (fun v => Poised a (pc + 1) (v :: stack))
      (.ofExcept (Value.element s.heap b p) s) := by
  refine .of_shows h hi ?_
  simp only [execute, h.advance.stack, h.advance.holds.1]
  exact shows_check h.advance.holds fun v _ => shows_running ((h.advance.drop [p, b]).push v)

theorem Poised.list {count : UInt16} {items : List Value} (h : Poised a pc (items.reverse ++ stack) s m)
    (hi : a.routine.Holds pc (.makeList count)) (hcount : count.toNat = items.length) :
    Reaches env a loop pending base fuel m (fun v => Poised a (pc + 1) (v :: stack))
      (Evaluator.make (.list items.toArray) s) := by
  have hlength : items.reverse.length = count.toNat := by rw [List.length_reverse, hcount]
  have hroom : ¬ m.advance.stack.height < count.toNat := by
    rw [m.advance.stack.height_eq, h.advance.stack, List.length_append, hlength]
    omega
  have dropped := h.advance.drop items.reverse
  rw [hlength] at dropped
  refine .of_shows h hi ?_
  simp only [execute]
  rw [if_neg hroom, h.advance.stack, List.take_left' hlength, List.reverse_reverse]
  simp only [Evaluator.make, pushList, ← dropped.holds.1]
  exact shows_running ((dropped.setHeap _).push _)

theorem Poised.setIndex {b p v : Value} (h : Poised a pc (v :: p :: b :: stack) s m) (hi : a.routine.Holds pc .setIndex) :
    Reaches env a loop pending base fuel m (fun _ => Poised a (pc + 1) stack) (setIndex b p v s) := by
  have dropped : Poised a (pc + 1) stack s (m.advance.drop 3) := h.advance.drop [v, p, b]
  refine .of_shows h hi ?_
  simp only [execute, Evaluator.setIndex, h.advance.stack]
  rw [h.advance.holds.1]
  refine shows_proceed h.advance.holds fun target _ => ?_
  simp only [replaceIn, ← dropped.holds.1]
  exact shows_running (dropped.setHeap _)

theorem Poised.pop {v : Value} (h : Poised a pc (v :: stack) s m) (env : Env) (hi : a.routine.Holds pc .pop) :
    ∃ m', Next env m m' ∧ Poised a (pc + 1) stack s m' := by
  refine ⟨m.advance.drop 1, .of_running ?_, h.advance.drop [v]⟩
  rw [h.step hi]
  simp only [execute, h.advance.stack]

theorem Poised.jump {target : Nat} (h : Poised a pc stack s m) (env : Env) (hi : a.routine.JumpsAt pc target) :
    ∃ m', Next env m m' ∧ Poised a target stack s m' := by
  obtain ⟨t, hi, rfl⟩ := hi
  exact ⟨_, .of_running (h.step hi), h.advance.jumpTo t.toNat⟩

/-- Where a conditional jump leads. -/
theorem Poised.branch {target : Nat} {v : Value} (h : Poised a pc (v :: stack) s m) (env : Env) (hi : a.routine.BranchesAt pc target) :
    ∃ m', Next env m m' ∧ Poised a (if v.isTrue s.heap then pc + 1 else target) stack s m' := by
  obtain ⟨t, hi, rfl⟩ := hi
  have dropped : Poised a (pc + 1) stack s (m.advance.drop 1) := h.advance.drop [v]
  have hstep : Machine.step env m = _ := h.step hi
  simp only [execute, h.advance.stack, h.advance.holds.1] at hstep
  split
  · rename_i htrue
    rw [if_pos htrue] at hstep
    exact ⟨_, .of_running hstep, dropped⟩
  · rename_i hfalse
    rw [if_neg hfalse] at hstep
    exact ⟨_, .of_running hstep, dropped.jumpTo t.toNat⟩

theorem Poised.bool {b : Bool} (h : Poised a pc stack s m) (env : Env) (hi : a.routine.Holds pc (.bool b)) :
    ∃ m', Next env m m' ∧ Poised a (pc + 1) (.bool b :: stack) s m' :=
  ⟨_, .of_running (h.step hi), h.advance.push _⟩

/-- The end of a short-circuit operator: the last operand becomes a boolean. -/
theorem Poised.verdict {v : Value} {fails : Nat} (h : Poised a pc (v :: stack) s m) (hbranch : a.routine.BranchesAt pc fails)
    (htrue : a.routine.Holds (pc + 1) (.bool true)) (hjump : a.routine.JumpsAt (pc + 2) (fails + 1))
    (hfalse : a.routine.Holds fails (.bool false)) :
    Reaches env a loop pending base fuel m (fun v => Poised a (fails + 1) (v :: stack))
      (.done (.bool (v.isTrue s.heap)) s) := by
  obtain ⟨m₁, first, h₁⟩ := h.branch env hbranch
  cases htest : v.isTrue s.heap with
  | true =>
    rw [htest, if_pos rfl] at h₁
    obtain ⟨m₂, second, h₂⟩ := h₁.bool env htrue
    obtain ⟨m₃, third, h₃⟩ := h₂.jump env hjump
    exact ⟨3, m₃, .step h.inside first (.step h₁.inside second (.one h₂.inside third)), h₃⟩
  | false =>
    rw [htest, if_neg Bool.false_ne_true] at h₁
    obtain ⟨m₂, second, h₂⟩ := h₁.bool env hfalse
    exact ⟨2, m₂, .step h.inside first (.one h₁.inside second), h₂⟩

end

/-! ### Loops -/

/-- A loop, by induction on its rounds. Running dry takes as many steps as there are rounds, or as there was fuel for the
    condition and the body. -/
theorem whileTrue_reaches {env : Env} {a : Activation} {loop : Option LoopTargets} {pending : Bool} {stack : List Value}
    {fuel start exit test last : Nat} {condition body : Store → Evaluator.Outcome Value}
    (hcondition : ∀ s m, Poised a start stack s m →
      Reaches env a loop pending stack fuel m (fun v => Poised a test (v :: stack)) (condition s))
    (hbranch : a.routine.BranchesAt test exit)
    (hbody : ∀ s m, Poised a (test + 1) stack s m →
      Reaches env a (some ⟨start, exit⟩) false stack fuel m (fun v => Poised a last (v :: stack)) (body s))
    (hpop : a.routine.Holds last .pop) (hjump : a.routine.JumpsAt (last + 1) start) (n : Nat) {s : Store}
    {m : Machine} (h : Poised a start stack s m) :
    Reaches env a loop pending stack (min n fuel) m (fun _ => Poised a exit stack) (whileTrue condition body n s) := by
  induction n generalizing s m with
  | zero => exact ⟨0, m, .refl m, Nat.min_le_left 0 fuel⟩
  | succ n ih =>
    rw [whileTrue]
    refine .bind ((hcondition s m h).mono (Nat.min_le_right ..)) fun v s m h => ?_
    obtain ⟨m₁, first, h₁⟩ := h.branch env hbranch
    split
    · rename_i htrue
      rw [if_pos htrue] at h₁
      -- The next round starts at least one step later.
      have again : ∀ {k : Nat} {s : Store} {m₂ : Machine}, Course env a.callers.items k m₁ m₂ → Poised a start stack s m₂ →
          Reaches env a loop pending stack (min (n + 1) fuel) m (fun _ => Poised a exit stack)
            (whileTrue condition body n s) := by
        intro k s m₂ steps h₂
        exact ((ih h₂).after (.step h.inside first steps)).mono (by omega)
      -- A tidy body that jumps has pushed nothing, so the stack is that of the loop again.
      have round := hbody s m₁ h₁
      cases hresult : body s with
      | done v s =>
        rw [hresult] at round
        obtain ⟨k, m₂, steps, h₂⟩ := round
        obtain ⟨m₃, popped, h₃⟩ := h₂.pop env hpop
        obtain ⟨m₄, jumped, h₄⟩ := h₃.jump env hjump
        exact again (steps.trans (.step h₂.inside popped (.one h₃.inside jumped))) h₄
      | next s =>
        rw [hresult] at round
        obtain ⟨-, k, m₂, targets, steps, htargets, h₂⟩ := round
        cases htargets
        exact again steps h₂
      | leave s =>
        rw [hresult] at round
        obtain ⟨-, k, m₂, targets, steps, htargets, h₂⟩ := round
        cases htargets
        exact ⟨k + 1, m₂, .step h.inside first steps, h₂⟩
      | ret v s =>
        rw [hresult] at round
        obtain ⟨k, m₂, pc, above, steps, hret, h₂⟩ := round
        exact ⟨k + 1, m₂, pc, above, .step h.inside first steps, hret, h₂⟩
      | fault e s =>
        rw [hresult] at round
        obtain ⟨k, m₂, m₃, steps, hfault⟩ := round
        exact ⟨k + 1, m₂, m₃, .step h.inside first steps, hfault⟩
      | dry =>
        rw [hresult] at round
        obtain ⟨k, m₂, steps, hk⟩ := round
        exact ⟨k + 1, m₂, .step h.inside first steps, by omega⟩
    · rename_i hfalse
      rw [if_neg hfalse] at h₁
      exact ⟨1, m₁, .one h.inside first, h₁⟩

/-! ### Trees -/

mutual

/-- The code of an expression does what the expression means. -/
theorem expr_reaches {env : Env} {sc : Scope} {a : Activation} (suits : Suits env sc a) {loop : Option LoopTargets}
    {pending : Bool} {pc : Nat} {stack : List Value} {s : Store} {m : Machine} : (e : Bound.Expr) →
    Stands.expr a.routine loop pc e → Bound.Tidy.expr pending e = true → Poised a pc stack s m →
    Reaches env a loop pending stack sc.fuel m (fun v => Poised a (pc + Size.expr e) (v :: stack)) (Evaluator.expr sc e s)
  | .unit, stands, _, h => h.pushes stands rfl
  | .bool _, stands, _, h => h.pushes stands rfl
  | .int _, stands, _, h => h.constant stands
  | .text _, stands, _, h => h.constant stands
  | .float x, stands, _, h => by
    have reached : Reaches env a loop pending stack sc.fuel m (fun v => Poised a (pc + 1) (v :: stack))
      (.done (constantValue (.float x.toBits)) s) := h.constant stands
    rw [constantValue, float_ofBits_toBits] at reached
    exact reached
  | .load _, stands, _, h => h.load stands
  | .function _, ⟨_, stands, rfl⟩, _, h => h.function suits stands
  | .imported _, ⟨_, stands, rfl⟩, _, h => h.imported suits stands
  | .both left right, stands, tidy, h => by
    obtain ⟨hl, hbranch, hr, hlast, htrue, hjump, hfalse⟩ := stands
    obtain ⟨tl, tr⟩ := Bool.and_eq_true_iff.mp tidy
    have hsize : pc + Size.expr (.both left right) = pc + Size.expr left + 1 + Size.expr right + 3 + 1 := by
      simp only [Size.expr]
      omega
    rw [hsize, Evaluator.expr]
    refine .bind (expr_reaches suits left hl tl h) fun v s m h => ?_
    obtain ⟨m₁, first, h₁⟩ := h.branch env hbranch
    split
    · rename_i htest
      rw [if_pos htest] at h₁
      refine .mono (.after (.one h.inside first) ?_) (Nat.le_add_left ..)
      exact .bind (expr_reaches suits right hr tr h₁) fun v s m h => h.verdict hlast htrue hjump hfalse
    · rename_i htest
      rw [if_neg htest] at h₁
      obtain ⟨m₂, second, h₂⟩ := h₁.bool env hfalse
      exact ⟨2, m₂, .step h.inside first (.one h₁.inside second), h₂⟩
  | .either left right, stands, tidy, h => by
    obtain ⟨hl, hbranch, hyes, hskip, hr, hlast, htrue, hjump, hfalse⟩ := stands
    obtain ⟨tl, tr⟩ := Bool.and_eq_true_iff.mp tidy
    have hsize : pc + Size.expr (.either left right) = pc + Size.expr left + 3 + Size.expr right + 3 + 1 := by
      simp only [Size.expr]
      omega
    rw [hsize, Evaluator.expr]
    refine .bind (expr_reaches suits left hl tl h) fun v s m h => ?_
    obtain ⟨m₁, first, h₁⟩ := h.branch env hbranch
    split
    · rename_i htest
      rw [if_pos htest] at h₁
      obtain ⟨m₂, second, h₂⟩ := h₁.bool env hyes
      obtain ⟨m₃, third, h₃⟩ := h₂.jump env hskip
      exact ⟨3, m₃, .step h.inside first (.step h₁.inside second (.one h₂.inside third)), h₃⟩
    · rename_i htest
      rw [if_neg htest] at h₁
      refine .mono (.after (.one h.inside first) ?_) (Nat.le_add_left ..)
      exact .bind (expr_reaches suits right hr tr h₁) fun v s m h => h.verdict hlast htrue hjump hfalse
  | .operate op left right, stands, tidy, h => by
    obtain ⟨hl, hr, hop⟩ := stands
    obtain ⟨tl, tr⟩ := Bool.and_eq_true_iff.mp tidy
    have hsize : pc + Size.expr (.operate op left right) = pc + Size.expr left + Size.expr right + 1 := by
      simp only [Size.expr]
      omega
    rw [hsize, Evaluator.expr]
    refine .bind (expr_reaches suits left hl tl h) fun l s m h => ?_
    exact .bind (.above [l] (expr_reaches suits right hr tr h)) fun r s m h => h.operate suits hop
  | .unary op operand, stands, tidy, h => by
    obtain ⟨he, hop⟩ := stands
    rw [Evaluator.expr]
    exact .bind (expr_reaches suits operand he tidy h) fun v s m h => h.unary hop
  | .call callee args, stands, tidy, h => by
    obtain ⟨hc, ha, argc, hcall, hargc⟩ := stands
    obtain ⟨tc, ta⟩ := Bool.and_eq_true_iff.mp tidy
    have hsize : pc + Size.expr (.call callee args) = pc + Size.expr callee + Size.exprs args + 1 := by
      simp only [Size.expr]
      omega
    rw [hsize, Evaluator.expr]
    refine .bind (expr_reaches suits callee hc tc h) fun f s m h => ?_
    refine .bind (.above [f] (exprs_reaches suits args ha ta h)) fun vs s m ⟨hlength, h⟩ => ?_
    exact suits.call hcall (hargc.trans hlength.symm) h
  | .intrinsic i args, stands, tidy, h => by
    obtain ⟨ha, argc, hcall, hargc⟩ := stands
    rw [Evaluator.expr]
    exact .bind (exprs_reaches suits args ha tidy h) fun vs s m ⟨hlength, h⟩ =>
      h.intrinsic suits hcall (hargc.trans hlength.symm)
  | .index base position, stands, tidy, h => by
    obtain ⟨hb, hp, hindex⟩ := stands
    obtain ⟨tb, tp⟩ := Bool.and_eq_true_iff.mp tidy
    have hsize : pc + Size.expr (.index base position) = pc + Size.expr base + Size.expr position + 1 := by
      simp only [Size.expr]
      omega
    rw [hsize, Evaluator.expr]
    refine .bind (expr_reaches suits base hb tb h) fun b s m h => ?_
    exact .bind (.above [b] (expr_reaches suits position hp tp h)) fun p s m h => h.index hindex
  | .list items, stands, tidy, h => by
    obtain ⟨hi, count, hlist, hcount⟩ := stands
    rw [Evaluator.expr]
    exact .bind (exprs_reaches suits items hi tidy h) fun vs s m ⟨hlength, h⟩ =>
      h.list hlist (hcount.trans hlength.symm)
  | .branch condition body otherwise, stands, tidy, h => by
    obtain ⟨hc, hbranch, hb, hjump, ho⟩ := stands
    obtain ⟨tidy, te⟩ := Bool.and_eq_true_iff.mp tidy
    obtain ⟨tc, tb⟩ := Bool.and_eq_true_iff.mp tidy
    have hsize : pc + Size.expr (.branch condition body otherwise) =
        pc + Size.expr condition + 1 + Size.block body + 1 + Size.block otherwise := by
      simp only [Size.expr]
      omega
    rw [hsize, Evaluator.expr]
    refine .bind (expr_reaches suits condition hc tc h) fun v s m h => ?_
    obtain ⟨m₁, first, h₁⟩ := h.branch env hbranch
    refine .mono (.after (.one h.inside first) ?_) (Nat.le_add_left ..)
    split
    · rename_i htest
      rw [if_pos htest] at h₁
      exact .onward (block_reaches suits body hb tb h₁) fun v s m h => ⟨h.inside, h.jump env hjump⟩
    · rename_i htest
      rw [if_neg htest] at h₁
      exact block_reaches suits otherwise ho te h₁
  | .block b, stands, tidy, h => block_reaches suits b stands tidy h

/-- The values of expressions lie on the stack in the order in which they were evaluated. -/
theorem exprs_reaches {env : Env} {sc : Scope} {a : Activation} (suits : Suits env sc a) {loop : Option LoopTargets}
    {pending : Bool} {pc : Nat} {stack : List Value} {s : Store} {m : Machine} : (es : List Bound.Expr) →
    Stands.exprs a.routine loop pc es → Bound.Tidy.exprs pending es = true → Poised a pc stack s m →
    Reaches env a loop pending stack sc.fuel m
      (fun vs s m => vs.length = es.length ∧ Poised a (pc + Size.exprs es) (vs.reverse ++ stack) s m) (Evaluator.exprs sc es s)
  | [], _, _, h => .done ⟨rfl, h⟩
  | e :: es, ⟨he, hes⟩, tidy, h => by
    obtain ⟨te, tes⟩ := Bool.and_eq_true_iff.mp tidy
    rw [Evaluator.exprs]
    refine .bind (expr_reaches suits e he te h) fun v s m h => ?_
    refine .bind (.above [v] (exprs_reaches suits es hes tes h)) fun vs s m ⟨hlength, h⟩ => .done ⟨?_, ?_⟩
    · rw [List.length_cons, List.length_cons, hlength]
    · rw [List.reverse_cons, List.append_assoc]
      exact h.cast (Nat.add_assoc ..)

/-- The code of a statement does what the statement means. -/
theorem stmt_reaches {env : Env} {sc : Scope} {a : Activation} (suits : Suits env sc a) {loop : Option LoopTargets}
    {pending : Bool} {pc : Nat} {stack : List Value} {s : Store} {m : Machine} : (t : Bound.Stmt) →
    Stands.stmt a.routine loop pc t → Bound.Tidy.stmt pending t = true → Poised a pc stack s m →
    Reaches env a loop pending stack sc.fuel m (fun _ => Poised a (pc + Size.stmt t) stack) (Evaluator.stmt sc t s)
  | .store place value _, stands, tidy, h => by
    rw [Evaluator.stmt]
    exact .bind (expr_reaches suits value stands.1 tidy h) fun v s m h => h.store stands.2
  | .setIndex base position value line, stands, tidy, h => by
    obtain ⟨hb, hp, hv, hset⟩ := stands
    obtain ⟨tidy, tv⟩ := Bool.and_eq_true_iff.mp tidy
    obtain ⟨tb, tp⟩ := Bool.and_eq_true_iff.mp tidy
    have hsize : pc + Size.stmt (.setIndex base position value line) =
        pc + Size.expr base + Size.expr position + Size.expr value + 1 := by
      simp only [Size.stmt]
      omega
    rw [hsize, Evaluator.stmt]
    refine .bind (expr_reaches suits base hb tb h) fun b s m h => ?_
    refine .bind (.above [b] (expr_reaches suits position hp tp h)) fun p s m h => ?_
    exact .bind (.above [p, b] (expr_reaches suits value hv tv h)) fun v s m h => h.setIndex hset
  | .eval e _, stands, tidy, h => by
    rw [Evaluator.stmt]
    refine .bind (expr_reaches suits e stands.1 tidy h) fun v s m h => ?_
    obtain ⟨m₁, popped, h₁⟩ := h.pop env stands.2
    exact ⟨1, m₁, .one h.inside popped, h₁⟩
  | .ret value _, stands, tidy, h => by
    rw [Evaluator.stmt]
    exact .bind (expr_reaches suits value stands.1 tidy h) fun v s m h => ⟨0, m, _, [], .refl m, stands.2, h⟩
  | .loop condition body line, stands, tidy, h => by
    obtain ⟨hc, hbranch, hb, hpop, hjump⟩ := stands
    obtain ⟨tc, tb⟩ := Bool.and_eq_true_iff.mp tidy
    have hsize : pc + Size.stmt (.loop condition body line) = pc + Size.expr condition + 1 + Size.block body + 2 := by
      simp only [Size.stmt]
      omega
    rw [hsize, Evaluator.stmt]
    refine .mono ?_ (Nat.le_of_eq (Nat.min_self _).symm)
    exact whileTrue_reaches (fun s m h => expr_reaches suits condition hc tc h) hbranch
      (fun s m h => block_reaches suits body hb tb h) hpop hjump sc.fuel h
  | .leave _, ⟨targets, hloop, hjump⟩, tidy, h => by
    obtain ⟨m₁, jumped, h₁⟩ := h.jump env hjump
    exact ⟨by simpa [Bound.Tidy.stmt] using tidy, 1, m₁, targets, .one h.inside jumped, hloop, h₁⟩
  | .next _, ⟨targets, hloop, hjump⟩, tidy, h => by
    obtain ⟨m₁, jumped, h₁⟩ := h.jump env hjump
    exact ⟨by simpa [Bound.Tidy.stmt] using tidy, 1, m₁, targets, .one h.inside jumped, hloop, h₁⟩

theorem stmts_reaches {env : Env} {sc : Scope} {a : Activation} (suits : Suits env sc a) {loop : Option LoopTargets}
    {pending : Bool} {pc : Nat} {stack : List Value} {s : Store} {m : Machine} : (ts : List Bound.Stmt) →
    Stands.stmts a.routine loop pc ts → Bound.Tidy.stmts pending ts = true → Poised a pc stack s m →
    Reaches env a loop pending stack sc.fuel m (fun _ => Poised a (pc + Size.stmts ts) stack) (Evaluator.stmts sc ts s)
  | [], _, _, h => .done h
  | t :: ts, ⟨ht, hts⟩, tidy, h => by
    obtain ⟨tt, tts⟩ := Bool.and_eq_true_iff.mp tidy
    rw [Evaluator.stmts, Size.stmts, ← Nat.add_assoc]
    exact .bind (stmt_reaches suits t ht tt h) fun _ s m h => stmts_reaches suits ts hts tts h

theorem tail_reaches {env : Env} {sc : Scope} {a : Activation} (suits : Suits env sc a) {loop : Option LoopTargets}
    {pending : Bool} {pc : Nat} {stack : List Value} {s : Store} {m : Machine} : (t : Bound.Tail) →
    Stands.tail a.routine loop pc t → Bound.Tidy.tail pending t = true → Poised a pc stack s m →
    Reaches env a loop pending stack sc.fuel m (fun v => Poised a (pc + Size.tail t) (v :: stack)) (Evaluator.tail sc t s)
  | .nothing, stands, _, h => h.pushes stands rfl
  | .value e _, stands, tidy, h => expr_reaches suits e stands tidy h

theorem block_reaches {env : Env} {sc : Scope} {a : Activation} (suits : Suits env sc a) {loop : Option LoopTargets}
    {pending : Bool} {pc : Nat} {stack : List Value} {s : Store} {m : Machine} : (b : Bound.Block) →
    Stands.block a.routine loop pc b → Bound.Tidy.block pending b = true → Poised a pc stack s m →
    Reaches env a loop pending stack sc.fuel m (fun v => Poised a (pc + Size.block b) (v :: stack)) (Evaluator.block sc b s)
  | .mk body last, ⟨hbody, hlast⟩, tidy, h => by
    obtain ⟨tbody, tlast⟩ := Bool.and_eq_true_iff.mp tidy
    rw [Evaluator.block, Size.block, ← Nat.add_assoc]
    exact .bind (stmts_reaches suits body hbody tbody h) fun _ s m h => tail_reaches suits last hlast tlast h

end

end ScriptEngine.Machine
