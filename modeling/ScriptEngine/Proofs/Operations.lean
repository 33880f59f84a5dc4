import ScriptEngine.Proofs.DeadCode
import ScriptEngine.Tree

/-! The operations of a block: those in its statements and its value, without the ones in blocks nested in it
    (`Tree.Block.operations`). `Operations` gives them for a bound block, with the addresses of their code, which stands
    there if the code of the block does (`block_operations`). -/

namespace ScriptEngine

/-! ### Operations of the source -/

namespace Tree

/-- An operator with its operands. -/
structure Operation where
  op : BinaryOp
  left : Expr
  right : Expr

namespace Operations

mutual

/-- The operations in an expression. -/
def expr : Expr → List Operation
  | .name _ | .path .. | .literal .. | .block _ => []
  | .binary op left right _ => ⟨op, left, right⟩ :: (expr left ++ expr right)
  | .unary _ operand _ => expr operand
  | .call callee args _ => expr callee ++ exprs args
  | .index base position _ => expr base ++ expr position
  | .list items _ => exprs items
  | .branch b => branch b

def exprs : List Expr → List Operation
  | [] => []
  | e :: es => expr e ++ exprs es

/-- What is chosen from is blocks. -/
def branch : Branch → List Operation
  | .mk condition _ _ _ => expr condition

end

def optional : Option Expr → List Operation
  | none => []
  | some e => expr e

def stmt : Stmt → List Operation
  | .bind _ _ value _ | .ret value _ => optional value
  | .assign _ value _ | .eval value => expr value
  | .setIndex base position value _ => expr base ++ expr position ++ expr value
  | .loop condition _ _ => expr condition
  | .func .. | .leave _ | .next _ => []

end Operations

def Block.operations : Block → List Operation
  | .mk body last _ => body.flatMap Operations.stmt ++ Operations.optional last

end Tree

/-! ### Operations of a bound tree -/

namespace Lowering
open ScriptEngine.Bound

/-- An operation of a bound tree, and where its code begins. -/
structure OperationAt where
  expr : Expr
  pc : Nat

namespace Operations

mutual

/-- The operations in an expression whose code stands at `pc`. -/
def expr (pc : Nat) : Expr → List OperationAt
  | .unit | .int _ | .float _ | .bool _ | .text _ | .load _ | .function _ | .imported _ | .block _ => []
  | .both left right => ⟨.both left right, pc⟩ :: (expr pc left ++ expr (pc + Size.expr left + 1) right)
  | .either left right => ⟨.either left right, pc⟩ :: (expr pc left ++ expr (pc + Size.expr left + 3) right)
  | .operate op left right => ⟨.operate op left right, pc⟩ :: (expr pc left ++ expr (pc + Size.expr left) right)
  | .index left right => expr pc left ++ expr (pc + Size.expr left) right
  | .unary _ operand => expr pc operand
  | .call callee args => expr pc callee ++ exprs (pc + Size.expr callee) args
  | .intrinsic _ args | .list args => exprs pc args
  | .branch condition _ _ => expr pc condition

def exprs (pc : Nat) : List Expr → List OperationAt
  | [] => []
  | e :: es => expr pc e ++ exprs (pc + Size.expr e) es

end

def stmt (pc : Nat) : Stmt → List OperationAt
  | .store _ value _ | .eval value _ | .ret value _ => expr pc value
  | .setIndex base position value _ =>
    expr pc base ++ expr (pc + Size.expr base) position ++ expr (pc + Size.expr base + Size.expr position) value
  | .loop condition _ _ => expr pc condition
  | .leave _ | .next _ => []

def stmts (pc : Nat) : List Stmt → List OperationAt
  | [] => []
  | s :: ss => stmt pc s ++ stmts (pc + Size.stmt s) ss

def tail (pc : Nat) : Tail → List OperationAt
  | .nothing => []
  | .value e _ => expr pc e

def block (pc : Nat) : Block → List OperationAt
  | .mk body last => stmts pc body ++ tail (pc + Size.stmts body) last

theorem exprs_one (pc : Nat) (e : Expr) : exprs pc [e] = expr pc e := List.append_nil _

/-- A missing value is unit. -/
theorem expr_getD (pc : Nat) (v : Option Expr) : expr pc (v.getD .unit) = exprs pc v.toList := by
  cases v with
  | none => rfl
  | some e => exact (exprs_one pc e).symm

theorem stmts_one (pc : Nat) (s : Stmt) : stmts pc [s] = stmt pc s := List.append_nil _

theorem stmts_append (pc : Nat) (ss ss' : List Stmt) :
    stmts pc (ss ++ ss') = stmts pc ss ++ stmts (pc + Size.stmts ss) ss' := by
  induction ss generalizing pc with
  | nil => rfl
  | cons s ss ih => rw [List.cons_append, stmts, ih, stmts, Size.stmts, List.append_assoc, Nat.add_assoc]

end Operations

/-! ### Where their code stands -/

section
variable {r : Routine} {loop : Option LoopTargets}

/-- The code of an operation stands where it is listed. -/
def OperationAt.Stands (r : Routine) (loop : Option LoopTargets) (o : OperationAt) : Prop :=
  Stands.expr r loop o.pc o.expr

mutual

theorem expr_operations {pc : Nat} : (e : Expr) → Stands.expr r loop pc e → ∀ o ∈ Operations.expr pc e, o.Stands r loop
  | .unit, _ | .int _, _ | .float _, _ | .bool _, _ | .text _, _ | .load _, _ | .function _, _ | .imported _, _ |
    .block _, _ => fun _ ho => nomatch ho
  | .both left right, h => List.forall_mem_cons.mpr ⟨h, List.forall_mem_append.mpr
      ⟨expr_operations left h.1, expr_operations right h.2.2.1⟩⟩
  | .either left right, h => List.forall_mem_cons.mpr ⟨h, List.forall_mem_append.mpr
      ⟨expr_operations left h.1, expr_operations right h.2.2.2.2.1⟩⟩
  | .operate _ left right, h => List.forall_mem_cons.mpr ⟨h, List.forall_mem_append.mpr
      ⟨expr_operations left h.1, expr_operations right h.2.1⟩⟩
  | .unary _ operand, h => expr_operations operand h.1
  | .call callee args, h => List.forall_mem_append.mpr ⟨expr_operations callee h.1, exprs_operations args h.2.1⟩
  | .intrinsic _ args, h | .list args, h => exprs_operations args h.1
  | .index base position, h => List.forall_mem_append.mpr ⟨expr_operations base h.1, expr_operations position h.2.1⟩
  | .branch condition _ _, h => expr_operations condition h.1

theorem exprs_operations {pc : Nat} : (es : List Expr) → Stands.exprs r loop pc es →
    ∀ o ∈ Operations.exprs pc es, o.Stands r loop
  | [], _ => fun _ ho => nomatch ho
  | e :: es, h => List.forall_mem_append.mpr ⟨expr_operations e h.1, exprs_operations es h.2⟩

end

theorem stmt_operations {pc : Nat} (s : Stmt) (h : Stands.stmt r loop pc s) :
    ∀ o ∈ Operations.stmt pc s, o.Stands r loop := by
  cases s with
  | store place value line | eval value line | ret value line => exact expr_operations value h.1
  | setIndex base position value line =>
    exact List.forall_mem_append.mpr ⟨List.forall_mem_append.mpr ⟨expr_operations base h.1, expr_operations position h.2.1⟩,
      expr_operations value h.2.2.1⟩
  | loop condition body line => exact expr_operations condition h.1
  | leave line | next line => exact fun _ ho => nomatch ho

theorem stmts_operations {pc : Nat} {ss : List Stmt} (h : Stands.stmts r loop pc ss) :
    ∀ o ∈ Operations.stmts pc ss, o.Stands r loop := by
  induction ss generalizing pc with
  | nil => exact fun _ ho => nomatch ho
  | cons s ss ih => exact List.forall_mem_append.mpr ⟨stmt_operations s h.1, ih h.2⟩

theorem tail_operations {pc : Nat} (t : Tail) (h : Stands.tail r loop pc t) :
    ∀ o ∈ Operations.tail pc t, o.Stands r loop := by
  cases t with
  | nothing => exact fun _ ho => nomatch ho
  | value e line => exact expr_operations e h

/-- The code of the operations of a block stands where they are listed. -/
theorem block_operations {pc : Nat} (b : Block) (h : Stands.block r loop pc b) :
    ∀ o ∈ Operations.block pc b, o.Stands r loop := by
  cases b
  exact List.forall_mem_append.mpr ⟨stmts_operations h.1, tail_operations _ h.2⟩

end
end Lowering
end ScriptEngine
