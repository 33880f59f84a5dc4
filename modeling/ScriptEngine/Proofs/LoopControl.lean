import ScriptEngine.Proofs.OperandDepth

/-! Loop control and pending operands. A jump out of a loop that stands in an operand leaves what was pushed
    before that operand on the stack. In a tidy tree no jump stands in such a place, so nothing is ever left
    behind. -/

namespace ScriptEngine

namespace Bound.Tidy

mutual

/-- No jump out of the innermost loop stands where operands are pending; `pending` says whether there are any
    since that loop began. -/
def expr (pending : Bool) : Bound.Expr → Bool
  | .unit | .int _ | .float _ | .bool _ | .text _ | .load _ | .function _ | .imported _ => true
  | .both left right | .either left right => expr pending left && expr pending right
  | .operate _ left right => expr pending left && expr true right
  | .unary _ operand => expr pending operand
  | .call callee args => expr pending callee && exprs true args
  | .intrinsic _ args => exprs pending args
  | .index base position => expr pending base && expr true position
  | .list items => exprs pending items
  | .branch condition body otherwise => expr pending condition && block pending body && block pending otherwise
  | .block b => block pending b

/-- Expressions one after the other: the value of the first one is pending while the others run. -/
def exprs (pending : Bool) : List Bound.Expr → Bool
  | [] => true
  | e :: es => expr pending e && exprs true es

def stmt (pending : Bool) : Bound.Stmt → Bool
  | .store _ value _ => expr pending value
  | .setIndex base position value _ => expr pending base && expr true position && expr true value
  | .eval e _ => expr pending e
  | .ret value _ => expr pending value
  -- Jumps in a condition belong to the loop around.
  | .loop condition body _ => expr pending condition && block false body
  | .leave _ | .next _ => !pending

def stmts (pending : Bool) : List Bound.Stmt → Bool
  | [] => true
  | s :: ss => stmt pending s && stmts pending ss

def tail (pending : Bool) : Bound.Tail → Bool
  | .nothing => true
  | .value e _ => expr pending e

def block (pending : Bool) : Bound.Block → Bool
  | .mk body last => stmts pending body && tail pending last

end

end Bound.Tidy

/-- No function of a unit leaves a loop while operands are pending. -/
def Bound.Program.Tidy (p : Bound.Program) : Prop := ∀ f ∈ p.functions, Bound.Tidy.block false f.body = true

instance (p : Bound.Program) : Decidable p.Tidy :=
  inferInstanceAs (Decidable (∀ f ∈ p.functions, Bound.Tidy.block false f.body = true))

namespace Lowering.Sites

/-- None of the instructions leaves an operand behind. -/
def Clear (sites : List Site) : Prop := ∀ s ∈ sites, s.left = 0

theorem clear_nil : Clear [] ↔ True := by simp [Clear]

theorem clear_cons {s : Site} {sites : List Site} : Clear (s :: sites) ↔ s.left = 0 ∧ Clear sites :=
  List.forall_mem_cons

theorem clear_append {a b : List Site} : Clear (a ++ b) ↔ Clear a ∧ Clear b := List.forall_mem_append

mutual

/-- Nothing is left behind in a tidy expression. -/
theorem expr_clear {pending : Bool} {dl d : Nat} (hd : pending = false → d = dl) : (e : Bound.Expr) →
    Bound.Tidy.expr pending e = true → Clear (expr dl d e)
  | .unit, _ | .int _, _ | .float _, _ | .bool _, _ | .text _, _ | .load _, _ | .function _, _ | .imported _, _ =>
    clear_cons.mpr ⟨rfl, clear_nil.mpr trivial⟩
  | .both left right, h => by
    obtain ⟨hl, hr⟩ := Bool.and_eq_true_iff.mp h
    simp only [expr, clear_append, clear_cons, clear_nil, true_and, and_true]
    exact ⟨expr_clear hd left hl, expr_clear hd right hr⟩
  | .either left right, h => by
    obtain ⟨hl, hr⟩ := Bool.and_eq_true_iff.mp h
    simp only [expr, clear_append, clear_cons, clear_nil, true_and, and_true]
    exact ⟨expr_clear hd left hl, expr_clear hd right hr⟩
  | .operate _ left right, h => by
    obtain ⟨hl, hr⟩ := Bool.and_eq_true_iff.mp h
    simp only [expr, clear_append, clear_cons, clear_nil, and_true]
    exact ⟨expr_clear hd left hl, expr_clear (nofun : true = false → _) right hr⟩
  | .unary _ operand, h => by
    simp only [expr, clear_append, clear_cons, clear_nil, and_true]
    exact expr_clear hd operand h
  | .call callee args, h => by
    obtain ⟨hc, ha⟩ := Bool.and_eq_true_iff.mp h
    simp only [expr, clear_append, clear_cons, clear_nil, and_true]
    exact ⟨expr_clear hd callee hc, exprs_clear (nofun : true = false → _) args ha⟩
  | .intrinsic _ args, h | .list args, h => by
    simp only [expr, clear_append, clear_cons, clear_nil, and_true]
    exact exprs_clear hd args h
  | .index base position, h => by
    obtain ⟨hb, hp⟩ := Bool.and_eq_true_iff.mp h
    simp only [expr, clear_append, clear_cons, clear_nil, and_true]
    exact ⟨expr_clear hd base hb, expr_clear (nofun : true = false → _) position hp⟩
  | .branch condition body otherwise, h => by
    obtain ⟨h, ho⟩ := Bool.and_eq_true_iff.mp h
    obtain ⟨hc, hb⟩ := Bool.and_eq_true_iff.mp h
    simp only [expr, clear_append, clear_cons, true_and]
    exact ⟨expr_clear hd condition hc, block_clear hd body hb, block_clear hd otherwise ho⟩
  | .block b, h => block_clear hd b h

theorem exprs_clear {pending : Bool} {dl d : Nat} (hd : pending = false → d = dl) : (es : List Bound.Expr) →
    Bound.Tidy.exprs pending es = true → Clear (exprs dl d es)
  | [], _ => clear_nil.mpr trivial
  | e :: es, h => by
    obtain ⟨he, hes⟩ := Bool.and_eq_true_iff.mp h
    exact clear_append.mpr ⟨expr_clear hd e he, exprs_clear (nofun : true = false → _) es hes⟩

theorem stmt_clear {pending : Bool} {dl d : Nat} (hd : pending = false → d = dl) : (s : Bound.Stmt) →
    Bound.Tidy.stmt pending s = true → Clear (stmt dl d s)
  | .store _ value _, h | .eval value _, h | .ret value _, h => by
    simp only [stmt, clear_append, clear_cons, clear_nil, and_true]
    exact expr_clear hd value h
  | .setIndex base position value _, h => by
    obtain ⟨h, hv⟩ := Bool.and_eq_true_iff.mp h
    obtain ⟨hb, hp⟩ := Bool.and_eq_true_iff.mp h
    simp only [stmt, clear_append, clear_cons, clear_nil, and_true]
    exact ⟨expr_clear hd base hb, expr_clear (nofun : true = false → _) position hp,
      expr_clear (nofun : true = false → _) value hv⟩
  | .loop condition body _, h => by
    obtain ⟨hc, hb⟩ := Bool.and_eq_true_iff.mp h
    simp only [stmt, clear_append, clear_cons, clear_nil, true_and, and_true]
    exact ⟨expr_clear hd condition hc, block_clear (fun _ => rfl) body hb⟩
  | .leave _, h | .next _, h => by
    have hpending : pending = false := by simpa [Bound.Tidy.stmt] using h
    refine clear_cons.mpr ⟨?_, clear_nil.mpr trivial⟩
    rw [hd hpending]
    exact Nat.sub_self dl

theorem stmts_clear {pending : Bool} {dl d : Nat} (hd : pending = false → d = dl) : (ss : List Bound.Stmt) →
    Bound.Tidy.stmts pending ss = true → Clear (stmts dl d ss)
  | [], _ => clear_nil.mpr trivial
  | s :: ss, h => by
    obtain ⟨hs, hss⟩ := Bool.and_eq_true_iff.mp h
    exact clear_append.mpr ⟨stmt_clear hd s hs, stmts_clear hd ss hss⟩

theorem tail_clear {pending : Bool} {dl d : Nat} (hd : pending = false → d = dl) : (t : Bound.Tail) →
    Bound.Tidy.tail pending t = true → Clear (tail dl d t)
  | .nothing, _ => clear_cons.mpr ⟨rfl, clear_nil.mpr trivial⟩
  | .value e _, h => expr_clear hd e h

theorem block_clear {pending : Bool} {dl d : Nat} (hd : pending = false → d = dl) : (b : Bound.Block) →
    Bound.Tidy.block pending b = true → Clear (block dl d b)
  | .mk body last, h => by
    obtain ⟨hbody, hlast⟩ := Bool.and_eq_true_iff.mp h
    exact clear_append.mpr ⟨stmts_clear hd body hbody, tail_clear hd last hlast⟩

end

theorem stores_clear (ss : List Bound.FunctionSlot) : Clear (stores ss) := by
  intro s hs
  obtain ⟨_, -, hs⟩ := List.mem_flatMap.mp hs
  simp only [List.mem_cons, List.not_mem_nil, or_false] at hs
  rcases hs with rfl | rfl
  all_goals rfl

/-- A tidy function leaves nothing behind. -/
theorem function_clear {p : Bound.Program} {f : Bound.Func} (index : Nat) (h : Bound.Tidy.block false f.body = true) :
    Clear (function p index f) := by
  have opens : Clear (opening p index) := by
    unfold opening
    split
    · exact clear_cons.mpr ⟨rfl, stores_clear p.functionSlots⟩
    · exact clear_nil.mpr trivial
  have body : Clear (block 0 0 f.body) := block_clear (fun _ => rfl) f.body h
  exact clear_append.mpr ⟨opens, clear_append.mpr ⟨body, clear_cons.mpr ⟨rfl, clear_nil.mpr trivial⟩⟩⟩

end Lowering.Sites
end ScriptEngine
