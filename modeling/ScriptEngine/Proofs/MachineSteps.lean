import ScriptEngine.Invocation
import ScriptEngine.Proofs.OperandDepth

/-! Runs of the machine as sequences of steps, and what one step does to the frames and to the stack.

    A step either stays in the running function (`Moves`), or it enters a function (`Enters`), or it goes
    back to the caller (`Leaves`). `Does` says of the first kind all that each instruction does; what such a step
    keeps is proved by cases on it. -/

namespace ScriptEngine.Machine

/-! ### Steps -/

/-- The machine that goes on; a machine that sleeps goes on as well. -/
def Progress.next? : Progress → Option Machine
  | .running m | .sleeping _ m => some m
  | .finished .. | .faulted .. => none

/-- One step leads from one machine to another. -/
def Next (env : Env) (m m' : Machine) : Prop := (step env m).next? = some m'

/-- So many steps lead from one machine to another. -/
inductive Steps (env : Env) : Nat → Machine → Machine → Prop where
  | refl (m : Machine) : Steps env 0 m m
  | step {n : Nat} {m m' m'' : Machine} (first : Next env m m') (rest : Steps env n m' m'') : Steps env (n + 1) m m''

section
variable {env : Env} {n k : Nat} {m m' m'' : Machine}

theorem Next.of_running (h : step env m = .running m') : Next env m m' := by
  rw [Next, h]
  rfl

theorem Next.of_sleeping {millis : Nat} (h : step env m = .sleeping millis m') : Next env m m' := by
  rw [Next, h]
  rfl

theorem Next.cases (h : Next env m m') : step env m = .running m' ∨ ∃ millis, step env m = .sleeping millis m' := by
  unfold Next at h
  cases hstep : step env m with
  | running m₁ =>
    rw [hstep] at h
    cases h
    exact .inl rfl
  | sleeping millis m₁ =>
    rw [hstep] at h
    cases h
    exact .inr ⟨millis, rfl⟩
  | finished v m₁ | faulted e m₁ =>
    rw [hstep] at h
    cases h

theorem Next.unique (h : Next env m m') (h' : Next env m m'') : m' = m'' := Option.some.inj (h.symm.trans h')

theorem Steps.one (h : Next env m m') : Steps env 1 m m' := .step h (.refl m')

theorem Steps.trans (h : Steps env n m m') (h' : Steps env k m' m'') : Steps env (n + k) m m'' := by
  induction h with
  | refl m => rwa [Nat.zero_add]
  | step first _ ih =>
    rw [Nat.add_right_comm]
    exact .step first (ih h')

/-- Of two runs from one machine the shorter one is the beginning of the longer one. -/
theorem Steps.rest (h : Steps env n m m') (h' : Steps env (n + k) m m'') : Steps env k m' m'' := by
  induction h with
  | refl m => rwa [Nat.zero_add] at h'
  | step first _ ih =>
    rw [Nat.add_right_comm] at h'
    cases h' with
    | step first' rest => exact ih (first.unique first' ▸ rest)

/-- A property that one step keeps is kept by a run. -/
theorem Steps.keeps {P : Machine → Prop} (h : Steps env n m m') (hstep : ∀ {a b}, P a → Next env a b → P b) (hm : P m) :
    P m' := by
  induction h with
  | refl m => exact hm
  | step first _ ih => exact ih (hstep hm first)

/-- A run cannot go on from a machine that ends. -/
theorem Steps.le_of_end (hend : (Machine.step env m').next? = none) (h : Steps env n m m') (h' : Steps env k m m'') :
    k ≤ n := by
  rcases Nat.lt_or_ge n k with hlt | hle
  · obtain ⟨j, rfl⟩ := Nat.exists_eq_add_of_lt hlt
    rw [Nat.add_assoc] at h'
    cases h.rest h' with
    | step first _ =>
      rw [Next, hend] at first
      cases first
  · exact hle

/-- All runs from a machine end at the same place. -/
theorem Steps.unique_end (hend : (Machine.step env m').next? = none) (hend' : (Machine.step env m'').next? = none)
    (h : Steps env n m m') (h' : Steps env k m m'') : m' = m'' := by
  obtain rfl : n = k := Nat.le_antisymm (Steps.le_of_end hend' h' h) (Steps.le_of_end hend h h')
  cases Steps.rest (k := 0) h h' with
  | refl => rfl

/-- The machine after so many steps. -/
def after? (env : Env) : Nat → Machine → Option Machine
  | 0, m => some m
  | n + 1, m => (step env m).next?.bind (after? env n)

theorem after?_steps {env : Env} {n : Nat} {m m' : Machine} (h : after? env n m = some m') : Steps env n m m' := by
  induction n generalizing m with
  | zero =>
    cases h
    exact .refl _
  | succ n ih =>
    obtain ⟨m₁, first, h⟩ := Option.bind_eq_some_iff.mp h
    exact .step first (ih h)

/-! ### Slices -/

/-- What a slice leads to: it is used up, or the machine it stops at does not simply go on. -/
theorem run_steps (env : Env) (n : Nat) (m : Machine) : ∃ k m', Steps env k m m' ∧
    (run env n m = .running m' ∨ run env n m = Machine.step env m' ∧ ∀ m'', Machine.step env m' ≠ .running m'') := by
  induction n generalizing m with
  | zero => exact ⟨0, m, .refl m, .inl rfl⟩
  | succ n ih =>
    rw [run]
    cases hstep : Machine.step env m with
    | running m₁ =>
      obtain ⟨k, m', steps, h⟩ := ih m₁
      exact ⟨k + 1, m', .step (.of_running hstep) steps, h⟩
    | sleeping millis m₁ => exact ⟨0, m, .refl m, .inr (by simp [hstep])⟩
    | finished v m₁ => exact ⟨0, m, .refl m, .inr (by simp [hstep])⟩
    | faulted e m₁ => exact ⟨0, m, .refl m, .inr (by simp [hstep])⟩

theorem run_of_end (hend : (Machine.step env m).next? = none) (n : Nat) : run env (n + 1) m = Machine.step env m := by
  rw [run]
  cases hstep : Machine.step env m with
  | running m₁ =>
    rw [hstep] at hend
    cases hend
  | sleeping millis m₁ | finished v m₁ | faulted e m₁ => rfl

/-- A slice on the way to the end of a run reaches it or comes nearer to it. -/
theorem run_toward (h : Steps env k m m') (hend : (Machine.step env m').next? = none) (n : Nat) :
    run env n m = Machine.step env m' ∨ ∃ j m₁, j ≤ k ∧ (0 < n → j < k) ∧ Steps env j m₁ m' ∧
      (run env n m = .running m₁ ∨ ∃ millis, run env n m = .sleeping millis m₁) := by
  induction n generalizing k m with
  | zero => exact .inr ⟨k, m, Nat.le_refl k, fun h => absurd h (Nat.lt_irrefl 0), h, .inl rfl⟩
  | succ n ih =>
    cases h with
    | refl => exact .inl (run_of_end hend n)
    | @step j _ m₁ _ first rest =>
      obtain hstep | ⟨millis, hstep⟩ := first.cases
      · rw [run, hstep]
        obtain h | ⟨i, m₂, hi, -, steps, h⟩ := ih rest
        · exact .inl h
        · exact .inr ⟨i, m₂, by omega, fun _ => by omega, steps, h⟩
      · rw [run, hstep]
        exact .inr ⟨j, m₁, by omega, fun _ => by omega, rest, .inr ⟨millis, rfl⟩⟩

end

/-! ### What a step does -/

/-- A step within a function. -/
structure Moves (m : Machine) (i : Instr) (m' : Machine) : Prop where
  callers : m'.callers = m.callers
  frame : ∃ pc locals, m'.frame = { m.frame with pc := pc, locals := locals } ∧ pc ∈ i.exits m.frame.pc ∧
    locals.size = m.frame.locals.size
  room : i.pops ≤ m.stack.items.length
  stack : ∃ pushed, pushed.length = i.pushes ∧ m'.stack.items = pushed ++ m.stack.items.drop i.pops

/-- A step into a function. Its arguments and the callee below them are taken from the stack, and the
    function starts above what is left. -/
structure Enters (env : Env) (m : Machine) (argc : Nat) (m' : Machine) : Prop where
  callers : m'.callers.items = { m.frame with pc := m.frame.pc + 1 } :: m.callers.items
  frame : ∃ args c code routine, args.length = argc ∧ m.stack.items = args ++ .function c :: m'.stack.items ∧
    env.program.module? c.home = some code ∧ code.functions[c.index]? = some routine ∧
    routine.arity.toNat = argc ∧ m'.frame = .enter c code routine args.reverse m'.stack.items.length
  heap : m'.heap = m.heap
  records : m'.records = m.records

/-- A step back to the caller. -/
structure Leaves (m m' : Machine) : Prop where
  callers : m.callers.items = m'.frame :: m'.callers.items
  stack : ∃ v rest, m.stack.items = v :: rest ∧ m'.stack.items = v :: rest.drop (rest.length - m.frame.base)
  heap : m'.heap = m.heap
  records : m'.records = m.records

section
variable {env : Env} {m m' : Machine}

/-- A check before a step went well. -/
theorem next_proceed {α : Type} {result : Except RuntimeError α} {next : α → Machine → Progress}
    (h : (m.proceed result next).next? = some m') : ∃ x, result = .ok x ∧ (next x m).next? = some m' := by
  cases result with
  | error e => cases h
  | ok x => exact ⟨x, rfl, h⟩

theorem pushMade_eq (made : Value.Made) (m : Machine) : ∃ v heap work,
    m.pushMade made = { m with stack := m.stack.push v, heap := heap, work := work } := by
  cases made with
  | value v => exact ⟨v, _, _, rfl⟩
  | list items => exact ⟨_, _, _, rfl⟩

theorem answer_next {a : Intrinsic.Answer} (h : (answer a m).next? = some m') : ∃ v heap output,
    m' = { m with stack := m.stack.push v, heap := heap, output := output } := by
  cases a <;> (cases h; exact ⟨_, _, _, rfl⟩)

/-- An instruction that goes well, calls and returns apart: what it finds in the machine, and the machine after it. -/
inductive Does (env : Env) (m : Machine) : Instr → Machine → Prop where
  | const {i : UInt16} {c : Constant} (found : m.frame.routine.constants[i.toNat]? = some c) :
      Does env m (.const i) (m.advance.push (constantValue c))
  | unit : Does env m .unit (m.advance.push .unit)
  | bool (b : Bool) : Does env m (.bool b) (m.advance.push (.bool b))
  | loadLocal {i : UInt16} {v : Value} (found : m.frame.locals[i.toNat]? = some v) :
      Does env m (.loadLocal i) (m.advance.push v)
  | storeLocal {i : UInt16} {v : Value} {rest : List Value} (stack : m.stack.items = v :: rest)
      (inside : i.toNat < m.frame.locals.size) : Does env m (.storeLocal i) ((m.advance.drop 1).setLocal i.toNat v)
  | loadSlot {record : UInt32} {i : UInt16} {v : Value} (found : m.records.load record.toNat i.toNat = .ok v) :
      Does env m (.loadSlot record i) (m.advance.push v)
  | storeSlot {record : UInt32} {i : UInt16} {v : Value} {rest : List Value} {records : Records}
      (stack : m.stack.items = v :: rest) (stored : m.records.store record.toNat i.toNat v = .ok records) :
      Does env m (.storeSlot record i) { m.advance.drop 1 with records := records }
  | loadImport {i : UInt16} {c : Callable} (found : m.frame.code.imports[i.toNat]? = some c) :
      Does env m (.loadImport i) (m.advance.push (.function c))
  | loadFunction {i : UInt16} (inside : i.toNat < m.frame.code.functions.size) :
      Does env m (.loadFunction i) (m.advance.push (.function ⟨m.frame.callee.home, i.toNat⟩))
  | openRecord {index : Nat} (own : m.frame.code.record? = some index) :
      Does env m .openRecord { m.advance with records := m.records.start index m.frame.code.slots }
  | binary {op : Operator} {left right : Value} {rest : List Value} {made : Value.Made}
      (stack : m.stack.items = right :: left :: rest) (operated : left.operate (m.view env) op right = .ok made) :
      Does env m (.binary op) ((m.advance.drop 2).pushMade made)
  | neg {v negated : Value} {rest : List Value} (stack : m.stack.items = v :: rest) (operated : v.negate = .ok negated) :
      Does env m .neg ((m.advance.drop 1).push negated)
  | not {v : Value} {rest : List Value} (stack : m.stack.items = v :: rest) :
      Does env m .not ((m.advance.drop 1).push (.bool !v.isTrue m.heap))
  | jump (target : UInt32) : Does env m (.jump target) (m.advance.jumpTo target.toNat)
  | goOn {target : UInt32} {v : Value} {rest : List Value} (stack : m.stack.items = v :: rest)
      (holds : v.isTrue m.heap = true) : Does env m (.jumpIfFalse target) (m.advance.drop 1)
  | branch {target : UInt32} {v : Value} {rest : List Value} (stack : m.stack.items = v :: rest)
      (fails : ¬ v.isTrue m.heap = true) : Does env m (.jumpIfFalse target) ((m.advance.drop 1).jumpTo target.toNat)
  | pop {v : Value} {rest : List Value} (stack : m.stack.items = v :: rest) : Does env m .pop (m.advance.drop 1)
  | intrinsic {id argc : UInt8} {function : Intrinsic} {a : Intrinsic.Answer} {m' : Machine}
      (named : Intrinsic.ofId? id = some function) (room : argc.toNat ≤ m.stack.items.length)
      (called : function.call (m.view env) (m.stack.items.take argc.toNat).reverse = .ok a)
      (answered : (answer a (m.advance.drop argc.toNat)).next? = some m') : Does env m (.intrinsic id argc) m'
  | makeList {count : UInt16} (room : count.toNat ≤ m.stack.items.length) :
      Does env m (.makeList count)
        ((m.advance.drop count.toNat).pushList (m.stack.items.take count.toNat).reverse.toArray)
  | index {position base v : Value} {rest : List Value} (stack : m.stack.items = position :: base :: rest)
      (found : Value.element m.heap base position = .ok v) : Does env m .index ((m.advance.drop 2).push v)
  | setIndex {v position base : Value} {rest : List Value} {id index : Nat}
      (stack : m.stack.items = v :: position :: base :: rest)
      (found : Value.assignTarget m.heap base position v = .ok (id, index)) :
      Does env m .setIndex ((m.advance.drop 3).replaceIn id index v)

/-- An instruction that fails, and its error: an operand that is not there, or something that refuses what is asked
    of it. -/
inductive Fails (env : Env) (m : Machine) : Instr → RuntimeError → Prop where
  | underflow {i : Instr} (short : m.stack.items.length < i.pops) : Fails env m i (.invalidProgram .underflow)
  | const {i : UInt16} (absent : m.frame.routine.constants[i.toNat]? = none) :
      Fails env m (.const i) (.invalidProgram .constant)
  | loadLocal {i : UInt16} (absent : m.frame.locals[i.toNat]? = none) :
      Fails env m (.loadLocal i) (.invalidProgram .localVariable)
  | storeLocal {i : UInt16} (outside : ¬ i.toNat < m.frame.locals.size) :
      Fails env m (.storeLocal i) (.invalidProgram .localVariable)
  | loadSlot {record : UInt32} {i : UInt16} {e : RuntimeError}
      (refused : m.records.load record.toNat i.toNat = .error e) : Fails env m (.loadSlot record i) e
  | storeSlot {record : UInt32} {i : UInt16} {v : Value} {e : RuntimeError}
      (refused : m.records.store record.toNat i.toNat v = .error e) : Fails env m (.storeSlot record i) e
  | loadImport {i : UInt16} (absent : m.frame.code.imports[i.toNat]? = none) :
      Fails env m (.loadImport i) (.invalidProgram .imported)
  | loadFunction {i : UInt16} (outside : ¬ i.toNat < m.frame.code.functions.size) :
      Fails env m (.loadFunction i) (.invalidProgram .function)
  | openRecord (none : m.frame.code.record? = none) :
      Fails env m .openRecord (.invalidProgram (.noRecord m.frame.code.name))
  | binary {op : Operator} {left right : Value} {rest : List Value} {e : RuntimeError}
      (stack : m.stack.items = right :: left :: rest) (refused : left.operate (m.view env) op right = .error e) :
      Fails env m (.binary op) e
  | neg {v : Value} {rest : List Value} {e : RuntimeError} (stack : m.stack.items = v :: rest)
      (refused : v.negate = .error e) : Fails env m .neg e
  | call {argc : UInt8} {callee : Value} {rest : List Value} {e : RuntimeError}
      (below : m.stack.items.drop argc.toNat = callee :: rest)
      (refused : calleeFrame env m callee (m.stack.items.take argc.toNat).reverse = .error e) : Fails env m (.call argc) e
  | unknown {id argc : UInt8} (unnamed : Intrinsic.ofId? id = none) :
      Fails env m (.intrinsic id argc) (.invalidProgram (.intrinsic id.toNat))
  | intrinsic {id argc : UInt8} {function : Intrinsic} {e : RuntimeError} (named : Intrinsic.ofId? id = some function)
      (refused : function.call (m.view env) (m.stack.items.take argc.toNat).reverse = .error e) :
      Fails env m (.intrinsic id argc) e
  | index {position base : Value} {rest : List Value} {e : RuntimeError}
      (stack : m.stack.items = position :: base :: rest) (refused : Value.element m.heap base position = .error e) :
      Fails env m .index e
  | setIndex {v position base : Value} {rest : List Value} {e : RuntimeError}
      (stack : m.stack.items = v :: position :: base :: rest)
      (refused : Value.assignTarget m.heap base position v = .error e) : Fails env m .setIndex e

/-- Every instruction but a call and a return does what it is for, or it does not go on. -/
theorem execute_does {i : Instr} (hcall : ∀ argc, i ≠ .call argc) (hret : i ≠ .ret)
    (h : (execute env m.advance i).next? = some m') : Does env m i m' := by
  cases i with
  | const i =>
    simp only [execute] at h
    split at h
    · rename_i c found
      cases h
      exact .const found
    · cases h
  | unit =>
    cases h
    exact .unit
  | bool b =>
    cases h
    exact .bool b
  | loadLocal i =>
    simp only [execute] at h
    split at h
    · rename_i v found
      cases h
      exact .loadLocal found
    · cases h
  | storeLocal i =>
    simp only [execute] at h
    split at h
    · rename_i v rest stack
      split at h
      · rename_i inside
        cases h
        exact .storeLocal stack inside
      · cases h
    · cases h
  | loadSlot record i =>
    simp only [execute] at h
    obtain ⟨v, found, h⟩ := next_proceed h
    cases h
    exact .loadSlot found
  | storeSlot record i =>
    simp only [execute] at h
    split at h
    · rename_i v rest stack
      obtain ⟨records, stored, h⟩ := next_proceed h
      cases h
      exact .storeSlot stack stored
    · cases h
  | loadImport i =>
    simp only [execute] at h
    split at h
    · rename_i c found
      cases h
      exact .loadImport found
    · cases h
  | loadFunction i =>
    simp only [execute] at h
    split at h
    · rename_i inside
      cases h
      exact .loadFunction inside
    · cases h
  | openRecord =>
    simp only [execute] at h
    split at h
    · rename_i index own
      cases h
      exact .openRecord own
    · cases h
  | binary op =>
    simp only [execute] at h
    split at h
    · rename_i right left rest stack
      obtain ⟨made, operated, h⟩ := next_proceed h
      cases h
      exact .binary stack operated
    · cases h
  | neg =>
    simp only [execute] at h
    split at h
    · rename_i v rest stack
      obtain ⟨negated, operated, h⟩ := next_proceed h
      cases h
      exact .neg stack operated
    · cases h
  | not =>
    simp only [execute] at h
    split at h
    · rename_i v rest stack
      cases h
      exact .not stack
    · cases h
  | jump target =>
    cases h
    exact .jump target
  | jumpIfFalse target =>
    simp only [execute] at h
    split at h
    · rename_i v rest stack
      split at h
      · rename_i holds
        cases h
        exact .goOn stack holds
      · rename_i fails
        cases h
        exact .branch stack fails
    · cases h
  | pop =>
    simp only [execute] at h
    split at h
    · rename_i v rest stack
      cases h
      exact .pop stack
    · cases h
  | call argc => exact absurd rfl (hcall argc)
  | intrinsic id argc =>
    simp only [execute, intrinsic] at h
    split at h
    · cases h
    · rename_i function named
      split at h
      · cases h
      · rename_i few
        obtain ⟨a, called, h⟩ := next_proceed h
        exact .intrinsic named (m.stack.height_eq ▸ Nat.not_lt.mp few) called h
  | makeList count =>
    simp only [execute] at h
    split at h
    · cases h
    · rename_i few
      cases h
      exact .makeList (m.stack.height_eq ▸ Nat.not_lt.mp few)
  | index =>
    simp only [execute] at h
    split at h
    · rename_i position base rest stack
      obtain ⟨v, found, h⟩ := next_proceed h
      cases h
      exact .index stack found
    · cases h
  | setIndex =>
    simp only [execute] at h
    split at h
    · rename_i v position base rest stack
      obtain ⟨⟨id, index⟩, found, h⟩ := next_proceed h
      cases h
      exact .setIndex stack found
    · cases h
  | ret => exact absurd rfl hret

/-- Every instruction but a call and a return stays in its function. -/
theorem Does.moves {i : Instr} (h : Does env m i m') : Moves m i m' := by
  cases h with
  | const | unit | bool | loadLocal | loadSlot | loadImport | loadFunction =>
    exact ⟨rfl, ⟨_, _, rfl, .head _, rfl⟩, Nat.zero_le _, [_], rfl, rfl⟩
  | openRecord | jump => exact ⟨rfl, ⟨_, _, rfl, .head _, rfl⟩, Nat.zero_le _, [], rfl, rfl⟩
  | storeLocal stack =>
    exact ⟨rfl, ⟨_, _, rfl, .head _, by simp [advance, jumpTo, drop]⟩, by simp [stack, Instr.pops], [], rfl, rfl⟩
  | storeSlot stack | goOn stack | pop stack | setIndex stack =>
    exact ⟨rfl, ⟨_, _, rfl, .head _, rfl⟩, by simp [stack, Instr.pops], [], rfl, rfl⟩
  | branch stack => exact ⟨rfl, ⟨_, _, rfl, .tail _ (.head _), rfl⟩, by simp [stack, Instr.pops], [], rfl, rfl⟩
  | neg stack | not stack | index stack =>
    exact ⟨rfl, ⟨_, _, rfl, .head _, rfl⟩, by simp [stack, Instr.pops], [_], rfl, rfl⟩
  | @binary _ _ _ _ made stack =>
    obtain ⟨v, heap, work, hmade⟩ := pushMade_eq made (m.advance.drop 2)
    rw [hmade]
    exact ⟨rfl, ⟨_, _, rfl, .head _, rfl⟩, by simp [stack, Instr.pops], [v], rfl, rfl⟩
  | intrinsic _ room _ answered =>
    obtain ⟨v, heap, output, rfl⟩ := answer_next answered
    exact ⟨rfl, ⟨_, _, rfl, .head _, rfl⟩, room, [v], rfl, rfl⟩
  | makeList room => exact ⟨rfl, ⟨_, _, rfl, .head _, rfl⟩, room, [_], rfl, rfl⟩

theorem calleeFrame_eq_ok {callee : Value} {args : List Value} {frame : Frame}
    (h : calleeFrame env m callee args = .ok frame) : ∃ c code routine, callee = .function c ∧
      env.program.module? c.home = some code ∧ code.functions[c.index]? = some routine ∧
      routine.arity.toNat = args.length ∧ frame = .enter c code routine args (m.stack.height - (args.length + 1)) := by
  unfold calleeFrame at h
  split at h
  · rename_i c
    split at h
    · cases h
    · rename_i code hcode
      split at h
      · cases h
      · rename_i routine hroutine
        split at h
        · cases h
        · rename_i harity
          split at h
          · cases h
          · cases h
            exact ⟨c, code, routine, rfl, hcode, hroutine, Decidable.not_not.mp harity, rfl⟩
  · cases h

theorem call_enters {argc : Nat} (h : (call env argc m.advance).next? = some m') : Enters env m argc m' := by
  unfold call at h
  split at h
  · cases h
  · rename_i callee rest hdrop
    have hdrop : m.stack.items.drop argc = callee :: rest := hdrop
    obtain ⟨frame, hframe, h⟩ := next_proceed h
    cases h
    obtain ⟨c, code, routine, rfl, hcode, hroutine, harity, rfl⟩ := calleeFrame_eq_ok hframe
    have hlength : argc ≤ m.stack.items.length := by
      rcases Nat.lt_or_ge m.stack.items.length argc with hlt | hle
      · rw [List.drop_eq_nil_of_le (Nat.le_of_lt hlt)] at hdrop
        cases hdrop
      · exact hle
    have hargs : ((m.stack.items.take argc).reverse).length = argc := by simp [hlength]
    have hrest : m.stack.items.drop (argc + 1) = rest := by
      rw [← List.drop_drop, hdrop]
      rfl
    have hitems : (m.advance.stack.drop (argc + 1)).items = rest := hrest
    have hheight : m.advance.stack.height - (argc + 1) = rest.length := by
      rw [← hrest, List.length_drop, ← m.stack.height_eq]
      rfl
    refine ⟨rfl, ⟨m.stack.items.take argc, c, code, routine, ?_, ?_, hcode, hroutine, ?_, ?_⟩, rfl, rfl⟩
    · simp [hlength]
    · simp only [hitems]
      rw [← hdrop, List.take_append_drop]
    · exact harity.trans hargs
    · simp only [hitems]
      rw [show m.advance.stack.items = m.stack.items from rfl, hargs, hheight]

theorem ret_leaves (h : (ret m.advance).next? = some m') : Leaves m m' := by
  unfold ret at h
  split at h
  · cases h
  · rename_i v rest hstack
    have hstack : m.stack.items = v :: rest := hstack
    simp only at h
    split at h
    · cases h
    · rename_i caller callers hcallers
      have hcallers : m.callers.items = caller :: callers := hcallers
      cases h
      refine ⟨?_, ⟨v, rest, hstack, ?_⟩, rfl, rfl⟩
      · rw [hcallers]
        simp only [Stack.items_drop]
        rw [show m.advance.callers.items = m.callers.items from rfl, hcallers]
        rfl
      · rw [Stack.items_push, Stack.items_cutTo, Stack.items_drop]
        rw [show m.advance.stack.items = m.stack.items from rfl, hstack]
        rfl

theorem step_of_holds {i : Instr} (hi : m.frame.routine.Holds m.frame.pc i) : step env m = execute env m.advance i := by
  unfold step
  rw [hi]

/-- A step carries out the instruction at the program counter. -/
theorem next_execute (h : Next env m m') : ∃ i, m.frame.routine.Holds m.frame.pc i ∧
    (execute env m.advance i).next? = some m' := by
  unfold Next step at h
  split at h
  · rename_i i hi
    exact ⟨i, hi, h⟩
  · cases h

/-- What one step does: it carries out an instruction of the running function, it enters a function, or it goes
    back. -/
theorem next_does (h : Next env m m') : ∃ i, m.frame.routine.Holds m.frame.pc i ∧
    (Does env m i m' ∨ (∃ argc, i = .call argc ∧ Enters env m argc.toNat m') ∨ i = .ret ∧ Leaves m m') := by
  obtain ⟨i, hi, h⟩ := next_execute h
  refine ⟨i, hi, ?_⟩
  by_cases hcall : ∃ argc, i = .call argc
  · obtain ⟨argc, rfl⟩ := hcall
    exact .inr (.inl ⟨argc, rfl, call_enters h⟩)
  · by_cases hret : i = .ret
    · subst hret
      exact .inr (.inr ⟨rfl, ret_leaves h⟩)
    · exact .inl (execute_does (fun argc heq => hcall ⟨argc, heq⟩) hret h)

theorem next_inv (h : Next env m m') : ∃ i, m.frame.routine.Holds m.frame.pc i ∧
    (Moves m i m' ∨ (∃ argc, i = .call argc ∧ Enters env m argc.toNat m') ∨ i = .ret ∧ Leaves m m') := by
  obtain ⟨i, hi, h⟩ := next_does h
  exact ⟨i, hi, h.imp_left Does.moves⟩

/-! ### Steps that do not go on -/

/-- A check before a step did not go well, or the step does not go on. -/
theorem next_refused {α : Type} {result : Except RuntimeError α} {next : α → Machine → Progress}
    (h : (m.proceed result next).next? = none) (goes : ∀ x, (next x m).next? ≠ none) :
    ∃ e, result = .error e ∧ m.proceed result next = .faulted e m := by
  cases result with
  | error e => exact ⟨e, rfl, rfl⟩
  | ok x => exact absurd h (goes x)

theorem length_lt_two {l : List Value} (h : ∀ v w rest, l ≠ v :: w :: rest) : l.length < 2 := by
  match l with
  | [] => exact Nat.zero_lt_two
  | [_] => exact Nat.one_lt_two
  | v :: w :: rest => exact absurd rfl (h v w rest)

theorem length_lt_three {l : List Value} (h : ∀ u v w rest, l ≠ u :: v :: w :: rest) : l.length < 3 := by
  match l with
  | [] => exact Nat.zero_lt_succ 2
  | [_] => exact Nat.succ_lt_succ Nat.zero_lt_two
  | [_, _] => exact Nat.lt_succ_self 2
  | u :: v :: w :: rest => exact absurd rfl (h u v w rest)

/-- An instruction that does not go on fails and leaves the machine as it is, or it returns from the function that
    was started first. -/
theorem execute_ends {i : Instr} (h : (execute env m.advance i).next? = none) :
    (∃ e, execute env m.advance i = .faulted e m.advance ∧ Fails env m i e) ∨
      i = .ret ∧ ∃ v stack, execute env m.advance i = .finished v { m.advance with stack := stack } := by
  have short (few : m.stack.items.length < i.pops) :
      ∃ e, m.advance.invalid .underflow = .faulted e m.advance ∧ Fails env m i e := ⟨_, rfl, .underflow few⟩
  have empty (nil : m.stack.items = []) (pops : 0 < i.pops) :
      ∃ e, m.advance.invalid .underflow = .faulted e m.advance ∧ Fails env m i e := short (by rwa [nil])
  cases i with
  | unit | bool | jump => cases h
  | const i =>
    simp only [execute] at h ⊢
    split at h
    · cases h
    · rename_i absent
      exact .inl ⟨_, rfl, .const absent⟩
  | loadLocal i =>
    simp only [execute] at h ⊢
    split at h
    · cases h
    · rename_i absent
      exact .inl ⟨_, rfl, .loadLocal absent⟩
  | storeLocal i =>
    simp only [execute] at h ⊢
    split at h
    · split at h
      · cases h
      · rename_i outside
        rw [if_neg outside]
        exact .inl ⟨_, rfl, .storeLocal outside⟩
    · rename_i nil
      exact .inl (empty nil Nat.zero_lt_one)
  | loadSlot record i =>
    simp only [execute] at h ⊢
    obtain ⟨e, refused, eq⟩ := next_refused h (by rintro _ ⟨⟩)
    exact .inl ⟨e, eq, .loadSlot refused⟩
  | storeSlot record i =>
    simp only [execute] at h ⊢
    split at h
    · obtain ⟨e, refused, eq⟩ := next_refused h (by rintro _ ⟨⟩)
      exact .inl ⟨e, eq, .storeSlot refused⟩
    · rename_i nil
      exact .inl (empty nil Nat.zero_lt_one)
  | loadImport i =>
    simp only [execute] at h ⊢
    split at h
    · cases h
    · rename_i absent
      exact .inl ⟨_, rfl, .loadImport absent⟩
  | loadFunction i =>
    simp only [execute] at h ⊢
    split at h
    · cases h
    · rename_i outside
      rw [if_neg outside]
      exact .inl ⟨_, rfl, .loadFunction outside⟩
  | openRecord =>
    simp only [execute] at h ⊢
    split at h
    · cases h
    · rename_i none
      exact .inl ⟨_, rfl, .openRecord none⟩
  | binary op =>
    simp only [execute] at h ⊢
    split at h
    · rename_i right left rest stack
      obtain ⟨e, refused, eq⟩ := next_refused h (by rintro _ ⟨⟩)
      exact .inl ⟨e, eq, .binary stack refused⟩
    · rename_i few
      exact .inl (short (length_lt_two few))
  | neg =>
    simp only [execute] at h ⊢
    split at h
    · rename_i v rest stack
      obtain ⟨e, refused, eq⟩ := next_refused h (by rintro _ ⟨⟩)
      exact .inl ⟨e, eq, .neg stack refused⟩
    · rename_i nil
      exact .inl (empty nil Nat.zero_lt_one)
  | not | pop =>
    simp only [execute] at h ⊢
    split at h
    · cases h
    · rename_i nil
      exact .inl (empty nil Nat.zero_lt_one)
  | jumpIfFalse target =>
    simp only [execute] at h ⊢
    split at h
    · split at h
      all_goals cases h
    · rename_i nil
      exact .inl (empty nil Nat.zero_lt_one)
  | call argc =>
    simp only [execute, call] at h ⊢
    split at h
    · rename_i few
      exact .inl (short (Nat.lt_succ_of_le (List.drop_eq_nil_iff.mp few)))
    · rename_i callee rest below
      obtain ⟨e, refused, eq⟩ := next_refused h (by rintro _ ⟨⟩)
      exact .inl ⟨e, eq, .call below refused⟩
  | intrinsic id argc =>
    simp only [execute, intrinsic] at h ⊢
    split at h
    · rename_i unnamed
      exact .inl ⟨_, rfl, .unknown unnamed⟩
    · rename_i function named
      split at h
      · rename_i few
        rw [if_pos few]
        exact .inl (short (m.stack.height_eq ▸ few))
      · rename_i enough
        obtain ⟨e, refused, eq⟩ := next_refused h fun a h => by cases a <;> cases h
        rw [if_neg enough]
        exact .inl ⟨e, eq, .intrinsic named refused⟩
  | makeList count =>
    simp only [execute] at h ⊢
    split at h
    · rename_i few
      rw [if_pos few]
      exact .inl (short (m.stack.height_eq ▸ few))
    · cases h
  | index =>
    simp only [execute] at h ⊢
    split at h
    · rename_i position base rest stack
      obtain ⟨e, refused, eq⟩ := next_refused h (by rintro _ ⟨⟩)
      exact .inl ⟨e, eq, .index stack refused⟩
    · rename_i few
      exact .inl (short (length_lt_two few))
  | setIndex =>
    simp only [execute] at h ⊢
    split at h
    · rename_i v position base rest stack
      obtain ⟨e, refused, eq⟩ := next_refused h (by rintro _ ⟨⟩)
      exact .inl ⟨e, eq, .setIndex stack refused⟩
    · rename_i few
      exact .inl (short (length_lt_three few))
  | ret =>
    simp only [execute, ret] at h ⊢
    split at h
    · rename_i nil
      exact .inl (empty nil Nat.zero_lt_one)
    · split at h
      · exact .inr ⟨trivial, _, _, rfl⟩
      · cases h

/-- A step that fails leaves the machine at the instruction that failed. -/
theorem step_fails {i : Instr} {e : RuntimeError} (hi : m.frame.routine.Holds m.frame.pc i)
    (h : step env m = .faulted e m') : m' = m.advance ∧ Fails env m i e := by
  rw [step_of_holds hi] at h
  have stops : (execute env m.advance i).next? = none := by
    rw [h]
    rfl
  obtain ⟨e', eq, fails⟩ | ⟨-, v, stack, eq⟩ := execute_ends stops
  · cases h.symm.trans eq
    exact ⟨rfl, fails⟩
  · cases h.symm.trans eq

end

/-! ### Single instructions -/

section
variable {env : Env} {m : Machine}

theorem step_constant {c : Constant} (h : m.frame.routine.ConstantAt m.frame.pc c) :
    step env m = .running (m.advance.push (constantValue c)) := by
  obtain ⟨i, hi, hc⟩ := h
  have hc : m.advance.frame.routine.constants[i.toNat]? = some c := hc
  rw [step_of_holds hi]
  simp only [execute, hc]

/-- An operator takes its operands, the right one from the top. -/
theorem step_binary {op : Operator} {a b : Value} {rest : List Value} (hi : m.frame.routine.Holds m.frame.pc (.binary op))
    (hstack : m.stack.items = b :: a :: rest) : step env m =
      m.advance.proceed (a.operate (m.advance.view env) op b) fun made m => .running ((m.drop 2).pushMade made) := by
  have hstack : m.advance.stack.items = b :: a :: rest := hstack
  rw [step_of_holds hi]
  simp only [execute, hstack]

end

/-- An environment without modules. -/
def bareEnv : Env := ⟨⟨#[], #[]⟩, 1⟩

/-- A machine about to carry out one instruction, with these operands on its stack. -/
def alone (i : Instr) (operands : List Value) : Machine :=
  let routine : Routine := ⟨"alone", 0, 0, #[], #[i], []⟩
  { frame := .enter ⟨.fragment 0, 0⟩ ⟨"alone", .submission, 1, #[routine], #[], #[]⟩ routine [] 0
    callers := .empty
    stack := ⟨operands, operands.length, rfl⟩
    heap := .empty
    records := .withCapacity 0
    output := #[]
    work := 0 }

theorem alone_holds (i : Instr) (operands : List Value) :
    (alone i operands).frame.routine.Holds (alone i operands).frame.pc i := rfl

theorem alone_stack (i : Instr) (operands : List Value) : (alone i operands).stack.items = operands := rfl

end ScriptEngine.Machine

namespace ScriptEngine.Invocation
open Machine

section
variable {env : Env} {slice k : Nat} {m m' : Machine}

/-- How a machine whose next step is the last one leaves a run. -/
def ofEnd : Progress → Option Invocation
  | .finished v m => some ⟨.ok v, m⟩
  | .faulted e m => some (fault e m)
  | .running _ | .sleeping .. => none

theorem next?_of_end {done : Invocation} (h : ofEnd (step env m) = some done) : (step env m).next? = none := by
  cases hstep : step env m with
  | running m₁ | sleeping millis m₁ =>
    rw [hstep] at h
    cases h
  | finished v m₁ | faulted e m₁ => rfl

/-- A run ends after some steps: by the step after them, or because it is interrupted there. -/
theorem drive_steps {watch : Watch} {fuel slept : Nat} {done : Invocation}
    (h : drive env slice watch fuel slept m = some done) : ∃ k m', Steps env k m m' ∧
      (ofEnd (step env m') = some done ∨
        ∃ interrupt time, watch m'.work time = some interrupt ∧ done = fault interrupt.error m') := by
  induction fuel generalizing slept m with
  | zero => cases h
  | succ fuel ih =>
    rw [drive] at h
    cases hwatch : watch m.work slept with
    | some interrupt =>
      rw [hwatch] at h
      cases h
      exact ⟨0, m, .refl m, .inr ⟨interrupt, slept, hwatch, rfl⟩⟩
    | none =>
      rw [hwatch] at h
      obtain ⟨k, m₁, steps, hrun | ⟨hrun, -⟩⟩ := run_steps env slice m
      · simp only [hrun] at h
        obtain ⟨j, m', steps', hend⟩ := ih h
        exact ⟨k + j, m', steps.trans steps', hend⟩
      · simp only [hrun] at h
        cases hstep : step env m₁ with
        | running m₂ =>
          simp only [hstep] at h
          obtain ⟨j, m', steps', hend⟩ := ih h
          exact ⟨k + (j + 1), m', steps.trans (.step (.of_running hstep) steps'), hend⟩
        | sleeping millis m₂ =>
          simp only [hstep] at h
          obtain ⟨j, m', steps', hend⟩ := ih h
          exact ⟨k + (j + 1), m', steps.trans (.step (.of_sleeping hstep) steps'), hend⟩
        | finished v m₂ | faulted e m₂ =>
          simp only [hstep] at h
          exact ⟨k, m₁, steps, .inl (by rw [hstep]; exact h)⟩

/-- Nothing stops a run. -/
def undisturbed : Watch := fun _ _ => none

/-- A run that nothing stops ends if some steps lead to a machine that ends, however it is sliced. -/
theorem drive_of_steps {done : Invocation} (hslice : 0 < slice) (steps : Steps env k m m')
    (hend : ofEnd (step env m') = some done) (slept : Nat) :
    ∃ fuel, drive env slice undisturbed fuel slept m = some done := by
  have hnone := next?_of_end hend
  -- Each slice comes nearer to the end.
  induction k using Nat.strongRecOn generalizing m slept with
  | ind k ih =>
    obtain hrun | ⟨j, m₁, -, hj, steps', hrun | ⟨millis, hrun⟩⟩ := run_toward steps hnone slice
    · refine ⟨1, ?_⟩
      rw [drive]
      cases hstep : step env m' with
      | running m₁ | sleeping millis m₁ =>
        rw [hstep] at hend
        cases hend
      | finished v m₁ | faulted e m₁ =>
        rw [hstep] at hend hrun
        simp only [undisturbed, hrun]
        exact hend
    · obtain ⟨fuel, h⟩ := ih j (hj hslice) steps' slept
      exact ⟨fuel + 1, by simp only [drive, undisturbed, hrun]; exact h⟩
    · obtain ⟨fuel, h⟩ := ih j (hj hslice) steps' (slept + millis)
      exact ⟨fuel + 1, by simp only [drive, undisturbed, hrun]; exact h⟩

end

end ScriptEngine.Invocation
