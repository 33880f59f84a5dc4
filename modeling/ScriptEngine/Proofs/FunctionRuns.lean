import ScriptEngine.Proofs.Calls

/-! Calls of functions that end with a loop. The evaluator gives every loop the fuel of its scope; where it is known how many
    rounds a loop takes, it needs none (`Evaluator.looped`). So such a function can be run in every program, whatever the
    other modules of the program are: a call comes to what the body comes to (`Machine.Poised.calls`), and a machine that is about
    to make it goes on with the value (`Machine.CallGives`), perhaps with other lists (`Machine.CallLeaves`), or fails before the
    function is left (`Machine.CallFails`). -/

namespace ScriptEngine

/-- Statements, a loop with so many rounds, and a value. -/
def Evaluator.looped (sc : Scope) (first : List Bound.Stmt) (condition : Bound.Expr) (round : Bound.Block)
    (last : Bound.Tail) (rounds : Nat) (s : Store) : Outcome Value :=
  (stmts sc first s).bind fun _ s =>
    (whileTrue (expr sc condition) (block sc round) rounds s).bind fun _ s => tail sc last s

/-! ### Rounds of a loop -/

namespace Evaluator

section
variable {sc : Scope} {s s₁ s₂ : Store} {v : Value} {e : Bound.Expr} {line : Nat}

/-- A local takes the value of an expression. -/
theorem stmt_store {index : Nat} (h : expr sc e s = .done v s₁) (stored : store (.frame index) v s₁ = .done () s₂) :
    stmt sc (.store (.frame index) e line) s = .done () s₂ := by
  rw [stmt, h]
  exact stored

theorem stmt_eval (h : expr sc e s = .done v s₁) : stmt sc (.eval e line) s = .done () s₁ := by
  rw [stmt, h]
  rfl

/-- Two statements, one after the other. -/
theorem block_pair {t u : Bound.Stmt} (first : stmt sc t s = .done () s₁) (second : stmt sc u s₁ = .done () s₂) :
    block sc (.mk [t, u] .nothing) s = .done .unit s₂ := by
  simp only [block, stmts, first, second, Outcome.bind, tail]

end

section
variable {condition round : Store → Outcome Value} {rounds : Nat} {s s₁ s₂ : Store} {v : Value} {holds : Bool}

/-- A loop ends when its condition fails. -/
theorem whileTrue_stops (h : condition s = .done (.bool holds) s₁) (fails : holds = false) :
    whileTrue condition round (rounds + 1) s = .done () s₁ := by
  rw [whileTrue, h, fails]
  rfl

/-- A loop goes on behind a round. -/
theorem whileTrue_goes (h : condition s = .done (.bool holds) s₁) (goes : holds = true) (hround : round s₁ = .done v s₂) :
    whileTrue condition round (rounds + 1) s = whileTrue condition round rounds s₂ := by
  rw [whileTrue, h, goes]
  simp only [Outcome.bind, Value.isTrue, hround, if_true]

/-- A round that returns ends the loop and the function. -/
theorem whileTrue_returns (h : condition s = .done (.bool holds) s₁) (goes : holds = true) (hround : round s₁ = .ret v s₂) :
    whileTrue condition round (rounds + 1) s = .ret v s₂ := by
  rw [whileTrue, h, goes]
  simp only [Outcome.bind, Value.isTrue, hround, if_true]

end

end Evaluator

namespace Machine
open Lowering Evaluator

section
variable {env : Env} {sc : Scope} {a : Activation} {loop : Option LoopTargets} {pending : Bool} {pc line : Nat}
  {stack : List Value} {s : Store} {m : Machine} {condition : Bound.Expr} {round : Bound.Block}

/-- A loop as a statement, with so many rounds. -/
theorem rounds_reach (suits : Suits env sc a) (stands : Stands.stmt a.routine loop pc (.loop condition round line))
    (tidy : Bound.Tidy.stmt pending (.loop condition round line) = true) (h : Poised a pc stack s m) (rounds : Nat) :
    Reaches env a loop pending stack (min rounds sc.fuel) m
      (fun _ => Poised a (pc + Size.stmt (.loop condition round line)) stack)
      (whileTrue (expr sc condition) (block sc round) rounds s) := by
  obtain ⟨hc, hbranch, hb, hpop, hjump⟩ := stands
  obtain ⟨tc, tb⟩ := Bool.and_eq_true_iff.mp tidy
  have hsize : pc + Size.stmt (.loop condition round line) = pc + Size.expr condition + 1 + Size.block round + 2 := by
    simp only [Size.stmt]
    omega
  rw [hsize]
  exact whileTrue_reaches (fun s m h => expr_reaches suits condition hc tc h) hbranch
    (fun s m h => block_reaches suits round hb tb h) hpop hjump rounds h

/-- Statements before a loop, and the loop. -/
theorem stmts_rounds_reach (suits : Suits env sc a) {first : List Bound.Stmt}
    (stands : Stands.stmts a.routine loop pc (first ++ [.loop condition round line]))
    (tidy : Bound.Tidy.stmts pending (first ++ [.loop condition round line]) = true) (h : Poised a pc stack s m) (rounds : Nat) :
    Reaches env a loop pending stack (min rounds sc.fuel) m
      (fun _ => Poised a (pc + Size.stmts (first ++ [.loop condition round line])) stack)
      ((Evaluator.stmts sc first s).bind fun _ s => whileTrue (expr sc condition) (block sc round) rounds s) := by
  induction first generalizing pc s m with
  | nil => exact rounds_reach suits stands.1 (Bool.and_eq_true_iff.mp tidy).1 h rounds
  | cons t ts ih =>
    obtain ⟨ht, hts⟩ := stands
    obtain ⟨tt, tts⟩ := Bool.and_eq_true_iff.mp tidy
    rw [List.cons_append, Size.stmts, ← Nat.add_assoc, Evaluator.stmts, Outcome.bind_assoc]
    exact ((stmt_reaches suits t ht tt h).mono (Nat.min_le_right ..)).bind fun _ s m h => ih hts tts h

/-- A body that ends with a loop and a value. -/
theorem looped_reaches (suits : Suits env sc a) {first : List Bound.Stmt} {last : Bound.Tail}
    (stands : Stands.block a.routine loop pc (.mk (first ++ [.loop condition round line]) last))
    (tidy : Bound.Tidy.block pending (.mk (first ++ [.loop condition round line]) last) = true) (h : Poised a pc stack s m)
    (rounds : Nat) : Reaches env a loop pending stack (min rounds sc.fuel) m
      (fun v => Poised a (pc + Size.block (.mk (first ++ [.loop condition round line]) last)) (v :: stack))
      (looped sc first condition round last rounds s) := by
  obtain ⟨hfirst, hlast⟩ := stands
  obtain ⟨tfirst, tlast⟩ := Bool.and_eq_true_iff.mp tidy
  rw [Size.block, ← Nat.add_assoc, looped, ← Outcome.bind_assoc]
  exact (stmts_rounds_reach suits hfirst tfirst h rounds).bind fun _ s m h =>
    (tail_reaches suits last hlast tlast h).mono (Nat.min_le_right ..)

end

/-! ### Calls -/

/-- The locals of a routine that was just entered. -/
def entryLocals (r : Routine) (args : List Value) : Array Value :=
  args.toArray ++ Array.replicate (r.locals.toNat - args.length) .unit

/-- The activation of a callee. -/
def Activation.into (a : Activation) (back : Nat) (locals : Array Value) (c : Callable) (code : CodeModule) (r : Routine)
    (base : Nat) : Activation := ⟨c, code, r, base, a.callers.push (a.frame back locals)⟩

/-- The body of a function comes to an outcome: if that is a value, it is about to be returned. -/
def Activation.ComesTo (env : Env) (b : Activation) (stack : List Value) (s : Store) (fuel : Nat) (o : Outcome Value) : Prop :=
  ∃ last, b.routine.Holds last .ret ∧
    ∀ m, Poised b 0 stack s m → Reaches env b none false stack fuel m (fun v => Poised b last (v :: stack)) o

section
variable {env : Env} {a : Activation} {loop : Option LoopTargets} {pending : Bool} {pc : Nat} {argc : UInt8} {c : Callable}
  {args stack : List Value} {s : Store} {m : Machine} {code : CodeModule} {r : Routine}

/-- A call comes to what the body of the callee comes to. -/
theorem Poised.calls {fuel : Nat} {o : Outcome Value} (h : Poised a pc (args.reverse ++ .function c :: stack) s m)
    (hi : a.routine.Holds pc (.call argc)) (hargc : argc.toNat = args.length)
    (hcode : env.program.module? c.home = some code) (hr : code.functions[c.index]? = some r)
    (harity : r.arity.toNat = args.length) (room : a.callers.height + 1 < env.maxDepth)
    (body : (a.into (pc + 1) s.locals c code r stack.length).ComesTo env stack { s with locals := entryLocals r args } fuel o) :
    Reaches env a loop pending stack (fuel + 1) m (fun v => Poised a (pc + 1) (v :: stack)) (o.restoring s.locals) := by
  obtain ⟨last, hret, body⟩ := body
  obtain ⟨m₁, entered, h₁⟩ := h.enters hi hargc hcode hr harity room
  exact ((body m₁ h₁).returns s.locals hret).reaches rfl rfl h.inside entered

end

section
variable {env : Env} {sc : Scope} {b : Activation} {index : Nat} {f : Bound.Func} {stack : List Value} {s : Store}

/-- A function that opens no record comes to what its body means. -/
theorem comesTo_block (suits : Suits env sc b) (stands : Stands.function b.routine sc.unit index f)
    (tidy : Bound.Tidy.block false f.body = true) (hopening : opening? sc.unit index = none) :
    b.ComesTo env stack s sc.fuel (Evaluator.block sc f.body s) := by
  have start : Size.opening sc.unit index = 0 := by rw [Size.opening, hopening]; rfl
  have body := stands.body
  have last := stands.last
  rw [start] at body last
  exact ⟨_, last, fun m h => block_reaches suits f.body body tidy h⟩

/-- If its body ends with a loop, any number of rounds will do. -/
theorem comesTo_looped (suits : Suits env sc b) (stands : Stands.function b.routine sc.unit index f)
    (tidy : Bound.Tidy.block false f.body = true) (hopening : opening? sc.unit index = none) {first : List Bound.Stmt}
    {condition : Bound.Expr} {round : Bound.Block} {line : Nat} {last : Bound.Tail}
    (hbody : f.body = .mk (first ++ [.loop condition round line]) last) (rounds : Nat) :
    b.ComesTo env stack s (min rounds sc.fuel) (looped sc first condition round last rounds s) := by
  have start : Size.opening sc.unit index = 0 := by rw [Size.opening, hopening]; rfl
  have body := stands.body
  have ret := stands.last
  rw [start, hbody] at body ret
  rw [hbody] at tidy
  exact ⟨_, ret, fun m h => looped_reaches suits body tidy h rounds⟩

end

/-! ### Machines about to call -/

/-- The call that is under way in a machine. -/
def activation (m : Machine) : Activation := ⟨m.frame.callee, m.frame.code, m.frame.routine, m.frame.base, m.callers⟩

def store (m : Machine) : Store := ⟨m.frame.locals, m.heap, m.records, m.output⟩

/-- The machine behind the call that it is about to make, with a value in place of the callee and its arguments. -/
def answered (m : Machine) (argc : Nat) (v : Value) (work : Nat) : Machine :=
  { m with
    frame := { m.frame with pc := m.frame.pc + 1 }
    stack := (m.stack.drop (argc + 1)).push v
    work := work }

/-- The frames that wait for the call that a machine is about to make. -/
def waiting (m : Machine) : List Frame := { m.frame with pc := m.frame.pc + 1 } :: m.callers.items

/-- The call that a machine is about to make gives a value: when it is over, nothing else has changed but the work done. -/
def CallGives (env : Env) (m : Machine) (argc : Nat) (v : Value) : Prop :=
  ∃ m₁ k work, Next env m m₁ ∧ Course env m.waiting k m₁ (m.answered argc v work)

/-- The call that a machine is about to make gives a value and leaves these lists; beside that, it changes as little as a call
    that gives a value. -/
def CallLeaves (env : Env) (m : Machine) (argc : Nat) (v : Value) (heap : Heap) : Prop :=
  ∃ m₁ k work, Next env m m₁ ∧ Course env m.waiting k m₁ { m.answered argc v work with heap := heap }

theorem callGives_iff {env : Env} {m : Machine} {argc : Nat} {v : Value} :
    CallGives env m argc v ↔ CallLeaves env m argc v m.heap := Iff.rfl

/-- The call that a machine is about to make fails, before it is over. -/
def CallFails (env : Env) (m : Machine) (e : RuntimeError) : Prop :=
  ∃ m₁ k m' m'', Next env m m₁ ∧ Course env m.waiting k m₁ m' ∧ Inside m.waiting m' ∧ step env m' = .faulted e m''

/-- A call that gives a value does not fail. -/
theorem CallLeaves.not_fails {env : Env} {m : Machine} {argc : Nat} {v : Value} {heap : Heap} {e : RuntimeError}
    (leaves : CallLeaves env m argc v heap) : ¬ CallFails env m e := by
  rintro ⟨m₁, k, m', m'', entered, course, inside, hfault⟩
  obtain ⟨m₂, j, work, entered', course'⟩ := leaves
  obtain rfl := entered.unique entered'
  have left : ¬ Inside m.waiting { m.answered argc v work with heap := heap } := fun h => Nat.not_succ_le_self _ h.length_le
  exact course'.stays left course inside (by rw [hfault]; rfl)

theorem CallGives.not_fails {env : Env} {m : Machine} {argc : Nat} {v : Value} {e : RuntimeError} (gives : CallGives env m argc v) :
    ¬ CallFails env m e := (callGives_iff.mp gives).not_fails

section
variable {env : Env} {m m' : Machine} {argc : UInt8} {c : Callable} {args rest : List Value} {code : CodeModule}
  {r : Routine} {fuel : Nat}

theorem poised (hstack : m.stack.items = args.reverse ++ .function c :: rest) :
    Poised m.activation m.frame.pc (args.reverse ++ .function c :: rest) m.store m := ⟨rfl, rfl, hstack, rfl, rfl, rfl⟩

theorem Poised.eq_answered {v : Value} {heap : Heap} {t : Store} (h : Poised m.activation (m.frame.pc + 1) (v :: rest) t m')
    (hstack : m.stack.items = args.reverse ++ .function c :: rest) (same : t = { m.store with heap := heap }) :
    m' = { m.answered args.length v m'.work with heap := heap } := by
  have hdrop : m.stack.items.drop (args.length + 1) = rest := by
    rw [hstack, ← List.drop_drop, List.drop_left' (List.length_reverse ..)]
    rfl
  have stack : m'.stack = (m.stack.drop (args.length + 1)).push v := by
    refine Stack.ext ?_
    rw [h.stack, Stack.items_push, Stack.items_drop, hdrop]
  have hframe := h.frame
  have hcallers := h.callers
  obtain ⟨hheap, hrecords, houtput⟩ := h.holds
  subst same
  cases m'
  simp only at stack hframe hcallers hheap hrecords houtput
  subst stack hframe hcallers hheap hrecords houtput
  rfl

variable (hstack : m.stack.items = args.reverse ++ .function c :: rest)
  (hi : m.frame.routine.Holds m.frame.pc (.call argc)) (hargc : argc.toNat = args.length)
  (hcode : env.program.module? c.home = some code) (hr : code.functions[c.index]? = some r)
  (harity : r.arity.toNat = args.length) (room : m.callers.height + 1 < env.maxDepth)
include hstack hi hargc hcode hr harity room

/-- A call gives the value that the body of the callee comes to, also where it returns early, and leaves the lists that the body
    leaves, if that leaves records and output alone. -/
theorem callLeaves_of_body {o : Outcome Value} {v : Value} {heap : Heap}
    (body : (m.activation.into (m.frame.pc + 1) m.frame.locals c code r rest.length).ComesTo env rest
      { m.store with locals := entryLocals r args } fuel o)
    (ends : o.restoring m.frame.locals = .done v { m.store with heap := heap }) : CallLeaves env m args.length v heap := by
  obtain ⟨last, hret, body⟩ := body
  obtain ⟨m₁, entered, h₁⟩ := (poised hstack).enters hi hargc hcode hr harity room
  have returns := (body m₁ h₁).returns m.frame.locals hret
  rw [ends] at returns
  obtain ⟨k, m₂, pc, above, t, course, hret, h₂, hstore⟩ := returns
  have hcallers : (m.activation.into (m.frame.pc + 1) m.frame.locals c code r rest.length).callers =
      m.activation.callers.push (m.activation.frame (m.frame.pc + 1) m.frame.locals) := rfl
  obtain ⟨m₃, left, h₃⟩ := h₂.returns env hret rfl hcallers
  refine ⟨m₁, k + 1, m₃.work, entered, ?_⟩
  rw [← h₃.eq_answered hstack hstore.symm]
  exact course.trans (.one h₂.inside left)

/-- A call gives the value that the body of the callee comes to, if that leaves lists, records and output alone. -/
theorem callGives_of_body {v : Value} {locals : Array Value}
    (body : (m.activation.into (m.frame.pc + 1) m.frame.locals c code r rest.length).ComesTo env rest
      { m.store with locals := entryLocals r args } fuel (.done v { m.store with locals := locals })) :
    CallGives env m args.length v :=
  callGives_iff.mpr (callLeaves_of_body hstack hi hargc hcode hr harity room body rfl)

theorem callFails_of_body {e : RuntimeError} {t : Store}
    (body : (m.activation.into (m.frame.pc + 1) m.frame.locals c code r rest.length).ComesTo env rest
      { m.store with locals := entryLocals r args } fuel (.fault e t)) : CallFails env m e := by
  obtain ⟨last, hret, body⟩ := body
  obtain ⟨m₁, entered, h₁⟩ := (poised hstack).enters hi hargc hcode hr harity room
  obtain ⟨k, m₂, m₃, course, hfault, -, inside⟩ := body m₁ h₁
  exact ⟨m₁, k, m₂, m₃, entered, course, inside, hfault⟩

end
end Machine
end ScriptEngine
