import ScriptEngine.Proofs.Places

/-! Emission that fails. A unit that is in scope has an image, or a table of it would be too large: its loop
    control has targets to jump to, and emission asks for nothing else. -/

namespace ScriptEngine
open ScriptEngine.Bound

/-- A table is too large: emission may fail with that, whatever is emitted. -/
def EmitError.IsLimit : EmitError → Prop
  | .strayLoopControl .. | .load _ => False
  | _ => True

namespace Lowering

/-! ### Steps of emission -/

/-- Where there is an error, a table is too large or loop control is astray. -/
def Ends {α : Type} (scope : Scope) (x : Except EmitError α) : Prop :=
  ∀ e, x = .error e → ¬scope.stray → e.IsLimit

/-- Emission ends in that way whatever was emitted before. -/
def Emits {α : Type} (scope : Scope) (x : Emit α) : Prop := ∀ t : Tables, Ends scope (x.run t)

section
variable {α β : Type} {scope : Scope}

theorem ends_ok {a : α} : Ends scope (.ok a) := nofun

theorem ends_limit {e : EmitError} (h : e.IsLimit) : Ends scope (.error e : Except EmitError α) := by
  rintro _ ⟨⟩ -
  exact h

theorem ends_bind {x : Except EmitError α} {f : α → Except EmitError β} (hx : Ends scope x)
    (hf : ∀ a, Ends scope (f a)) : Ends scope (x >>= f) := by
  cases x with
  | error e =>
    rintro _ ⟨⟩
    exact hx e rfl
  | ok a => exact hf a

theorem emits_pure {a : α} : Emits scope (pure a) := fun _ => ends_ok

theorem emits_bind {x : Emit α} {f : α → Emit β} (hx : Emits scope x) (hf : ∀ a, Emits scope (f a)) :
    Emits scope (x >>= f) := by
  intro t
  rw [StateT.run_bind]
  exact ends_bind (hx t) fun (a, t') => hf a t'

theorem emits_get : Emits scope (get : Emit Tables) := fun _ => ends_ok

theorem emits_modify {f : Tables → Tables} : Emits scope (modify f) := fun _ => ends_ok

theorem emits_guard {c : Prop} [Decidable c] {x : Emit α} {e : EmitError} (hx : Emits scope x) (h : e.IsLimit) :
    Emits scope (if c then x else throw e) := by
  split
  · exact hx
  · exact fun _ => ends_limit h

end

/-! ### Operands -/

section
variable {scope : Scope} {ctx : Context}

theorem emits_target {pc : Nat} : Emits scope (target ctx pc) := emits_guard emits_pure trivial

theorem emits_narrow {index : Nat} : Emits scope (narrow index) := emits_guard emits_pure trivial

theorem emits_localIndex {index : Nat} : Emits scope (localIndex ctx index) := emits_guard emits_pure trivial

theorem emits_recordIndex {record : Nat} : Emits scope (recordIndex record) := emits_guard emits_pure trivial

theorem emits_argumentCount {count : Nat} : Emits scope (argumentCount ctx count) := emits_guard emits_pure trivial

theorem emits_elementCount {count : Nat} : Emits scope (elementCount ctx count) := emits_guard emits_pure trivial

theorem emits_setLine {pc line : Nat} : Emits scope (setLine ctx pc line) := by
  refine emits_bind emits_get fun t => ?_
  split
  · exact emits_pure
  · exact emits_bind emits_target fun _ => emits_modify

theorem emits_constant {c : Constant} : Emits scope (constant ctx c) := by
  refine emits_bind emits_get fun t => ?_
  exact emits_guard (emits_bind emits_modify fun _ => emits_pure) trivial

theorem emits_load {place : Place} : Emits scope (load ctx place) := by
  cases place with
  | frame index => exact emits_bind emits_localIndex fun _ => emits_pure
  | slot record index => exact emits_bind emits_recordIndex fun _ => emits_bind emits_narrow fun _ => emits_pure

theorem emits_store {place : Place} : Emits scope (store ctx place) := by
  cases place with
  | frame index => exact emits_bind emits_localIndex fun _ => emits_pure
  | slot record index => exact emits_bind emits_recordIndex fun _ => emits_bind emits_narrow fun _ => emits_pure

/-- In a loop, there are targets for loop control to jump to. -/
theorem emits_control {inLoop : Bool} (hloop : inLoop = true → ctx.loop.isSome) (h : inLoop = true ∨ scope.stray)
    (keyword : Keyword) (out : LoopTargets → Nat) :
    Emits scope (match ctx.loop with
      | some targets => do return [.jump (← target ctx (out targets))]
      | none => throw (.strayLoopControl ctx.function keyword) : Emit (List Instr)) := by
  split
  · exact emits_bind emits_target fun _ => emits_pure
  · rename_i hnone
    rintro t _ - hstray
    rw [hnone] at hloop
    exact absurd (hloop (h.resolve_right hstray)) Bool.false_ne_true

end

/-! ### Trees -/

section
variable {scope : Scope}

mutual

theorem emits_expr {ctx : Context} {inLoop : Bool} (hloop : inLoop = true → ctx.loop.isSome) (pc : Nat) : (e : Expr) →
    Scoped.expr scope inLoop e → Emits scope (expr ctx pc e)
  | .unit, _ | .bool _, _ => emits_pure
  | .int _, _ | .float _, _ | .text _, _ => emits_constant
  | .load _, _ => emits_load
  | .function _, _ | .imported _, _ => emits_bind emits_narrow fun _ => emits_pure
  | .both left right, h => by
    refine emits_bind (emits_expr hloop _ left h.1) fun _ => emits_bind (emits_expr hloop _ right h.2) fun _ => ?_
    exact emits_bind emits_target fun _ => emits_bind emits_target fun _ => emits_pure
  | .either left right, h => by
    refine emits_bind (emits_expr hloop _ left h.1) fun _ => emits_bind (emits_expr hloop _ right h.2) fun _ => ?_
    refine emits_bind emits_target fun _ => emits_bind emits_target fun _ => ?_
    exact emits_bind emits_target fun _ => emits_pure
  | .operate _ left right, h =>
    emits_bind (emits_expr hloop _ left h.1) fun _ => emits_bind (emits_expr hloop _ right h.2) fun _ => emits_pure
  | .unary _ operand, h => emits_bind (emits_expr hloop _ operand h) fun _ => emits_pure
  | .call callee args, h =>
    emits_bind emits_argumentCount fun _ => emits_bind (emits_expr hloop _ callee h.1) fun _ =>
      emits_bind (emits_exprs hloop _ args h.2) fun _ => emits_pure
  | .intrinsic _ args, h =>
    emits_bind emits_argumentCount fun _ => emits_bind (emits_exprs hloop _ args h) fun _ => emits_pure
  | .index base position, h =>
    emits_bind (emits_expr hloop _ base h.1) fun _ => emits_bind (emits_expr hloop _ position h.2) fun _ => emits_pure
  | .list items, h =>
    emits_bind emits_elementCount fun _ => emits_bind (emits_exprs hloop _ items h) fun _ => emits_pure
  | .branch condition body otherwise, h => by
    refine emits_bind (emits_expr hloop _ condition h.1) fun _ => emits_bind (emits_block hloop _ body h.2.1) fun _ => ?_
    refine emits_bind (emits_block hloop _ otherwise h.2.2) fun _ => ?_
    exact emits_bind emits_target fun _ => emits_bind emits_target fun _ => emits_pure
  | .block b, h => emits_block hloop pc b h

theorem emits_exprs {ctx : Context} {inLoop : Bool} (hloop : inLoop = true → ctx.loop.isSome) (pc : Nat) :
    (es : List Expr) → Scoped.exprs scope inLoop es → Emits scope (exprs ctx pc es)
  | [], _ => emits_pure
  | e :: es, h => emits_bind (emits_expr hloop pc e h.1) fun _ => emits_bind (emits_exprs hloop _ es h.2) fun _ => emits_pure

theorem emits_stmt {ctx : Context} {inLoop : Bool} (hloop : inLoop = true → ctx.loop.isSome) (pc : Nat) : (s : Stmt) →
    Scoped.stmt scope inLoop s → Emits scope (stmt ctx pc s)
  | .store _ value _, h =>
    emits_bind emits_setLine fun _ => emits_bind (emits_expr hloop _ value h.2) fun _ =>
      emits_bind emits_store fun _ => emits_pure
  | .setIndex base position value _, h => by
    refine emits_bind emits_setLine fun _ => emits_bind (emits_expr hloop _ base h.1) fun _ => ?_
    refine emits_bind (emits_expr hloop _ position h.2.1) fun _ => emits_bind (emits_expr hloop _ value h.2.2) fun _ => ?_
    exact emits_pure
  | .eval e _, h | .ret e _, h =>
    emits_bind emits_setLine fun _ => emits_bind (emits_expr hloop _ e h) fun _ => emits_pure
  | .loop condition body _, h => by
    refine emits_bind emits_setLine fun _ => emits_bind (emits_expr hloop _ condition h.1) fun _ => ?_
    refine emits_bind (emits_block (fun _ => rfl) _ body h.2) fun _ => ?_
    exact emits_bind emits_target fun _ => emits_bind emits_target fun _ => emits_pure
  | .leave _, h => emits_bind emits_setLine fun _ => emits_control hloop h .leave LoopTargets.exit
  | .next _, h => emits_bind emits_setLine fun _ => emits_control hloop h .next LoopTargets.start

theorem emits_stmts {ctx : Context} {inLoop : Bool} (hloop : inLoop = true → ctx.loop.isSome) (pc : Nat) :
    (ss : List Stmt) → Scoped.stmts scope inLoop ss → Emits scope (stmts ctx pc ss)
  | [], _ => emits_pure
  | s :: ss, h => emits_bind (emits_stmt hloop pc s h.1) fun _ => emits_bind (emits_stmts hloop _ ss h.2) fun _ => emits_pure

theorem emits_tail {ctx : Context} {inLoop : Bool} (hloop : inLoop = true → ctx.loop.isSome) (pc : Nat) : (t : Tail) →
    Scoped.tail scope inLoop t → Emits scope (tail ctx pc t)
  | .nothing, _ => emits_pure
  | .value e _, h => emits_bind emits_setLine fun _ => emits_expr hloop pc e h

theorem emits_block {ctx : Context} {inLoop : Bool} (hloop : inLoop = true → ctx.loop.isSome) (pc : Nat) : (b : Block) →
    Scoped.block scope inLoop b → Emits scope (block ctx pc b)
  | .mk body last, h =>
    emits_bind (emits_stmts hloop pc body h.1) fun _ => emits_bind (emits_tail hloop _ last h.2) fun _ => emits_pure

end

/-! ### Routines and images -/

theorem emits_prologue {record : Nat} (ss : List FunctionSlot) : Emits scope (prologue record ss) := by
  induction ss with
  | nil => exact emits_pure
  | cons s ss ih =>
    refine emits_bind emits_narrow fun _ => emits_bind emits_recordIndex fun _ => emits_bind emits_narrow fun _ => ?_
    exact emits_bind ih fun _ => emits_pure

theorem emits_prologueOf {p : Bound.Program} {index : Nat} : Emits scope (prologueOf p index) := by
  unfold prologueOf
  split
  · split
    · exact emits_bind (emits_prologue _) fun _ => emits_pure
    · exact emits_pure
  · exact emits_pure

/-- The body of a function stands in no loop. -/
theorem emits_routineCode {p : Bound.Program} {index : Nat} {f : Func} (hf : f.Scoped scope) :
    Emits { scope with locals := f.locals } (routineCode p index f) := by
  refine emits_bind emits_setLine fun _ => emits_bind emits_prologueOf fun _ => ?_
  exact emits_bind (emits_block (fun h => absurd h Bool.false_ne_true) _ f.body hf.body) fun _ => emits_pure

theorem ends_routine {p : Bound.Program} {index : Nat} {f : Func} (hf : f.Scoped scope) :
    Ends scope (routine p index f) := by
  unfold routine
  by_cases harity : f.arity > argumentLimit
  · rw [if_pos harity]
    exact ends_limit trivial
  by_cases hlocals : f.locals > wordLimit
  · rw [if_neg harity, if_pos hlocals]
    exact ends_limit trivial
  rw [if_neg harity, if_neg hlocals]
  exact ends_bind (emits_routineCode hf _) fun _ => ends_ok

theorem ends_routines {p : Bound.Program} {fs : List Func} (hfs : ∀ f ∈ fs, f.Scoped scope) (start : Nat) :
    Ends scope (routines p fs start) := by
  induction fs generalizing start with
  | nil => exact ends_ok
  | cons f fs ih =>
    exact ends_bind (ends_routine (hfs f (.head _))) fun _ =>
      ends_bind (ih (fun f hf => hfs f (.tail _ hf)) (start + 1)) fun _ => ends_ok

theorem ends_checkEntries {table : EntryTable} {count : Nat} : Ends scope (checkEntries table count) := by
  unfold checkEntries
  split
  · exact ends_ok
  · exact ends_limit trivial

/-- Emission of a unit that is in scope fails for nothing but a table that is too large. -/
theorem ends_image (unit : UnitKind) {p : Bound.Program} (hp : p.Scoped scope) : Ends scope (image unit p) :=
  ends_bind ends_checkEntries fun _ => ends_bind ends_checkEntries fun _ => ends_bind ends_checkEntries fun _ =>
    ends_bind (ends_routines hp.functions 0) fun _ => ends_ok

end
end Lowering
end ScriptEngine
