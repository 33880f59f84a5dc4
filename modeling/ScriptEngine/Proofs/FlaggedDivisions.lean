import ScriptEngine.Proofs.UnreachableCode

/-! Divisions that are flagged because their divisor is zero. Each of these warnings is about a division of the source by a
    written zero, whose code pushes zero behind the code of the dividend and then divides (`Compiles.division`). That fails,
    unless the dividend is a floating-point number: then it gives an infinity or a number that is none
    (`Compiles.fails_flagged_iff`). -/

namespace ScriptEngine
open Lowering

/-! ### Operations of a function -/

/-- The operations of a body, those of the blocks nested in it included. -/
def Tree.Block.allOperations (body : Tree.Block) : List Tree.Operation := (Tree.Blocks.block body).flatMap Tree.Block.operations

/-- The operations of the function at a position of a unit. -/
def Lowering.Operations.function (p : Bound.Program) (index : Nat) (f : Bound.Func) : List OperationAt :=
  (Blocks.function p index f).flatMap fun b => Operations.block b.pc b.block

theorem Binder.HasBlocks.performs {ctx : Binder.Context} {body : Tree.Block} {f : Bound.Func}
    (h : Binder.HasBlocks ctx body f) (p : Bound.Program) (index : Nat) :
    Binder.Performs ctx body.allOperations (Operations.function p index f) :=
  List.rel_flatMap (h (Size.opening p index)) fun _ b from' => from'.operations b.pc

/-- The code of the operations of a function stands where they are listed. -/
theorem Lowering.function_operations {r : Routine} {p : Bound.Program} {index : Nat} {f : Bound.Func}
    (h : Stands.function r p index f) {o : OperationAt} (ho : o ∈ Operations.function p index f) :
    ∃ loop, o.Stands r loop := by
  obtain ⟨b, hb, ho⟩ := List.mem_flatMap.mp ho
  obtain ⟨loop, stands⟩ := (function_contained h).stands b hb
  exact ⟨loop, block_operations _ stands o ho⟩

/-! ### Dividing by zero -/

namespace Value

theorem nearestFloat_zero : nearestFloat 0 = 0 := by decide +kernel

section
variable {op : Operator} (hop : op = .div ∨ op = .rem) (view : View)
include hop

theorem operate_zero_int (n : Int64) : (int n).operate view op (.int 0) = .error .divisionByZero := by
  rcases hop with rfl | rfl <;> rfl

theorem operate_zero_float (x : Float) :
    (float x).operate view op (.int 0) = .ok (.value (float (floating op x 0))) := by
  rw [← nearestFloat_zero]
  rcases hop with rfl | rfl <;> rfl

/-- What is no floating-point number cannot be divided by zero. -/
theorem operate_zero {v : Value} (hv : ∀ x, v ≠ .float x) : ∃ e, v.operate view op (.int 0) = .error e := by
  cases v with
  | float x => exact absurd rfl (hv x)
  | int n => exact ⟨_, operate_zero_int hop view n⟩
  | unit | bool b | text t | list id | function c => rcases hop with rfl | rfl <;> exact ⟨_, rfl⟩

end
end Value

theorem Notice.code_divideByZero {notice : Notice} (h : notice.code = "prime.divideByZero") :
    ∃ op, notice = .divideByZero op := by
  cases notice with
  | divideByZero op => exact ⟨op, rfl⟩
  | _ => simp [code] at h

/-! ### Flagged divisions -/

/-- A division of the source by a zero that is written at a place, and its code. -/
structure Division (source : String) (u : ScriptUnit) (code : CodeModule) (span : Span) where
  ctx : Binder.Context
  tree : Tree.Fragment
  parsed : Tree.Fragment.parse source.toList = .ok tree
  bound : u.output = Binder.bind ctx tree
  /-- The position of the function that the division is in. -/
  index : Nat
  body : Tree.Block
  function : Bound.Func
  routine : Routine
  bodyAt : (tree.bodies u.kind)[index]? = some body
  functionAt : u.program.functions[index]? = some function
  routineAt : code.functions[index]? = some routine
  op : BinaryOp
  dividend : Tree.Expr
  operator : Operator
  left : Bound.Expr
  pc : Nat
  divides : op = .div ∧ operator = .div ∨ op = .rem ∧ operator = .rem
  paired : (⟨op, dividend, .literal (.int 0) span⟩, ⟨.operate operator left (.int 0), pc⟩) ∈
    body.allOperations.zip (Operations.function u.program index function)
  made : ∃ inLoop s, left = ((Binder.expr ctx inLoop dividend).run s).1
  stands : ∃ loop, Stands.expr routine loop pc (.operate operator left (.int 0))

namespace Division

variable {source : String} {u : ScriptUnit} {code : CodeModule} {span : Span}

/-- Where the code of the dividend ends. -/
def middle (f : Division source u code span) : Nat := f.pc + Size.expr f.left

/-- Where the code of the division ends. -/
def stop (f : Division source u code span) : Nat := f.pc + Size.expr (.operate f.operator f.left (.int 0))

theorem operator_cases (f : Division source u code span) : f.operator = .div ∨ f.operator = .rem :=
  f.divides.imp And.right And.right

/-- A machine that has evaluated the dividend, and nothing else. -/
def behind (f : Division source u code span) (v : Value) : Machine :=
  let m := Machine.alone .unit [v]
  { m with frame := { m.frame with routine := f.routine, pc := f.middle } }

end Division

namespace Compiles

variable {source : String} {u : ScriptUnit} {code : CodeModule}

/-- Whatever is flagged as a division by zero in a compiled source is one there, and has its code. -/
theorem division (h : Compiles source u code) {d : Diagnostic} (hd : d ∈ u.diagnostics) {op : BinaryOp}
    (hnotice : d.notice = .divideByZero op) : Nonempty (Division source u code d.span) := by
  obtain ⟨ctx, tree, hparse, hbound, bodies, justified⟩ := h.bound
  obtain ⟨t, ht, dividend, hop, hwritten⟩ := (justified d hd).division op hnotice
  obtain ⟨body, hbody, ht⟩ := List.mem_flatMap.mp ht
  obtain ⟨i, hi⟩ := List.mem_iff_getElem?.mp hbody
  obtain ⟨f, r, hf, hr, blocks, stands⟩ := h.function bodies hi
  obtain ⟨operator, divides, hbinary⟩ : ∃ operator, (op = .div ∧ operator = .div ∨ op = .rem ∧ operator = .rem) ∧
      ∀ left right, Binder.binary op left right = .operate operator left right := by
    rcases hop with rfl | rfl
    · exact ⟨.div, .inl ⟨rfl, rfl⟩, fun _ _ => rfl⟩
    · exact ⟨.rem, .inr ⟨rfl, rfl⟩, fun _ _ => rfl⟩
  -- The operation of the function that comes from the one that is flagged.
  obtain ⟨j, hj⟩ := List.mem_iff_getElem?.mp (List.mem_flatMap.mpr ⟨t, ht, hwritten⟩)
  obtain ⟨⟨e, pc⟩, ho, inLoop, s, s', he⟩ := exists_getElem?_of_forall₂ (blocks.performs u.program i) hj
  obtain rfl : e = _ := he.trans (hbinary _ _)
  exact ⟨⟨ctx, tree, hparse, hbound, i, body, f, r, hi, hf, hr, op, dividend, operator, _, pc, divides,
    mem_zip_of_getElem? hj ho, ⟨inLoop, s, rfl⟩, function_operations stands (List.mem_of_getElem? ho)⟩⟩

/-- What is flagged as a division by zero is a division of the source by a written zero. When its dividend has been
    evaluated, the machine fails within two steps exactly if the value is no floating-point number. An integer fails with a
    division by zero, and a floating-point number is divided. -/
theorem fails_flagged_iff (h : Compiles source u code) {d : Diagnostic} (hd : d ∈ u.diagnostics)
    (hcode : d.notice.code = "prime.divideByZero") : Nonempty (Division source u code d.span) ∧
    ∀ (f : Division source u code d.span) (env : Machine.Env) (m : Machine) (v : Value) (rest : List Value),
      m.frame.routine = f.routine → m.frame.pc = f.middle → m.stack.items = v :: rest →
      ∃ m', Machine.step env m = .running m' ∧
        ((∃ e m'', Machine.step env m' = .faulted e m'') ↔ ∀ x, v ≠ .float x) ∧
        (∀ n, v = .int n → Machine.step env m' = .faulted .divisionByZero m'.advance) ∧
        ∀ x, v = .float x → ∃ m'', Machine.step env m' = .running m'' ∧ m''.frame.routine = f.routine ∧
          m''.frame.pc = f.stop ∧ m''.stack.items = .float (Value.floating f.operator x 0) :: rest := by
  obtain ⟨op, hnotice⟩ := Notice.code_divideByZero hcode
  refine ⟨h.division hd hnotice, fun f env m v rest hroutine hpc hstack => ?_⟩
  obtain ⟨loop, -, zero, divides⟩ := f.stands
  have hpush : Machine.step env m = .running (m.advance.push (.int 0)) := by
    refine Machine.step_constant (c := .int 0) ?_
    rw [hroutine, hpc]
    exact zero
  let m' := m.advance.push (.int 0)
  have hdivide : m'.frame.routine.Holds m'.frame.pc (.binary f.operator) := by
    change m.frame.routine.Holds (m.frame.pc + 1) _
    rw [hroutine, hpc]
    exact divides
  have hitems : m'.stack.items = .int 0 :: v :: rest := by
    rw [show m'.stack.items = .int 0 :: m.stack.items from rfl, hstack]
  have step : Machine.step env m' = _ := Machine.step_binary hdivide hitems
  have divided (x : Float) (hx : v = .float x) : Machine.step env m' =
      .running ((m'.advance.drop 2).push (.float (Value.floating f.operator x 0))) := by
    rw [step, hx, Value.operate_zero_float f.operator_cases]
    rfl
  refine ⟨m', hpush, ⟨?_, fun hv => ?_⟩, fun n hn => ?_, fun x hx => ⟨_, divided x hx, hroutine, ?_, ?_⟩⟩
  · rintro ⟨e, m'', hfault⟩ x hx
    rw [divided x hx] at hfault
    cases hfault
  · obtain ⟨e, he⟩ := Value.operate_zero f.operator_cases (m'.advance.view env) hv
    exact ⟨e, _, by rw [step, he]; rfl⟩
  · rw [step, hn, Value.operate_zero_int f.operator_cases]
    rfl
  · change m.frame.pc + 1 + 1 = _
    rw [hpc]
    rfl
  · change ((m'.stack.drop 2).push _).items = _
    rw [Stack.items_push, Stack.items_drop, hitems]
    rfl

def dividedSource : String := "1.5 / 0"

/-- The quotient of a floating-point number is flagged, and yet it is infinite; that of an integer fails. -/
theorem fails_flagged_iff_float : ∃ accepted d, (Chain.start []).compile dividedSource #[] = .ok accepted ∧
    accepted.unit.Encodes ∧ accepted.unit.diagnostics = [d] ∧ d.notice.code = "prime.divideByZero" ∧ d.span = ⟨6, 7⟩ ∧
    Nonempty (Division dividedSource accepted.unit accepted.executable.code d.span) ∧
    ∀ f : Division dividedSource accepted.unit accepted.executable.code d.span,
      (∃ m' m'', Machine.step Machine.bareEnv (f.behind (.float 1.5)) = .running m' ∧
        Machine.step Machine.bareEnv m' = .running m'' ∧ m''.frame.pc = f.stop ∧
        m''.stack.items = [.float (Value.floating f.operator 1.5 0)]) ∧
      ∃ m', Machine.step Machine.bareEnv (f.behind (.int 3)) = .running m' ∧
        Machine.step Machine.bareEnv m' = .faulted .divisionByZero m'.advance := by
  obtain ⟨accepted, d, compiled, encodes, hd, hcode, hspan⟩ := @of_noting dividedSource "prime.divideByZero" ⟨6, 7⟩
    (by decide +kernel)
  obtain ⟨found, fails⟩ := (submission compiled encodes).fails_flagged_iff (hd ▸ .head _) hcode
  refine ⟨accepted, d, compiled, encodes, hd, hcode, hspan, found, fun f => ⟨?_, ?_⟩⟩
  · obtain ⟨m', hpush, -, -, divided⟩ := fails f Machine.bareEnv (f.behind (.float 1.5)) (.float 1.5) [] rfl rfl rfl
    obtain ⟨m'', hstep, -, hpc, hitems⟩ := divided 1.5 rfl
    exact ⟨m', m'', hpush, hstep, hpc, hitems⟩
  · obtain ⟨m', hpush, -, failed, -⟩ := fails f Machine.bareEnv (f.behind (.int 3)) (.int 3) [] rfl rfl rfl
    exact ⟨m', hpush, failed 3 rfl⟩

end Compiles
end ScriptEngine
