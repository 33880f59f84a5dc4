import ScriptEngine.Proofs.MachineFrames

/-! Code behind a statement that control never passes. `Blocks` gives the blocks of a bound tree with the addresses of
    their code, and what stands in such a block behind the first statement of this kind is dead (`BlockAt.Dead`). In the
    code of a function nothing leads there (`function_contained`), whatever is around the block, so no run of a program
    executes it (`Machine.skips_of_dead`). -/

namespace ScriptEngine
open ScriptEngine.Bound

namespace Bound.Stmt

/-- Control never passes the statement. -/
def diverges : Stmt → Bool
  | ret .. | leave _ | next _ => true
  | _ => false

/-- Statements up to the first one that control never passes. -/
def kept : List Stmt → List Stmt
  | [] => []
  | s :: ss => if s.diverges then [s] else s :: kept ss

/-- Nothing behind a statement that control never passes is kept. -/
theorem kept_append {ss : List Stmt} (h : ss.any diverges = true) (ss' : List Stmt) : kept (ss ++ ss') = kept ss := by
  induction ss with
  | nil => cases h
  | cons s ss ih =>
    rw [List.cons_append, kept, kept]
    cases hs : s.diverges with
    | true => rfl
    | false =>
      rw [List.any_cons, hs, Bool.false_or] at h
      exact congrArg (List.cons s) (ih h)

end Bound.Stmt

def Bound.Block.stmts : Block → List Stmt
  | mk body _ => body

namespace Lowering

mutual

/-- Every expression has code, and so has every block. -/
theorem Size.expr_pos : (e : Expr) → 0 < Size.expr e
  | .block b => Size.block_pos b
  | .unit | .int _ | .float _ | .bool _ | .text _ | .load _ | .function _ | .imported _ => Nat.one_pos
  | .both .. | .either .. | .operate .. | .unary .. | .call .. | .intrinsic .. | .index .. | .list .. | .branch .. =>
    Nat.succ_pos _

theorem Size.block_pos : (b : Block) → 0 < Size.block b
  | .mk _ last => Nat.lt_add_left _ (Size.tail_pos last)

theorem Size.tail_pos : (t : Tail) → 0 < Size.tail t
  | .nothing => Nat.one_pos
  | .value e _ => Size.expr_pos e

end

theorem Size.stmts_append (ss ss' : List Stmt) : Size.stmts (ss ++ ss') = Size.stmts ss + Size.stmts ss' := by
  induction ss with
  | nil => exact (Nat.zero_add _).symm
  | cons s ss ih => rw [List.cons_append, Size.stmts, ih, Size.stmts, Nat.add_assoc]

theorem Size.kept_le (ss : List Stmt) : Size.stmts (Stmt.kept ss) ≤ Size.stmts ss := by
  induction ss with
  | nil => exact Nat.le_refl _
  | cons s ss ih =>
    rw [Stmt.kept]
    split
    · exact Nat.add_le_add_left (Nat.zero_le _) _
    · exact Nat.add_le_add_left ih _

theorem Size.diverges_pos {s : Stmt} (h : s.diverges = true) : 0 < Size.stmt s := by
  cases s with
  | ret value line => exact Nat.succ_pos _
  | leave line | next line => exact Nat.one_pos
  | _ => cases h

theorem Size.kept_pos {ss : List Stmt} (h : ss.any Stmt.diverges = true) : 0 < Size.stmts (Stmt.kept ss) := by
  induction ss with
  | nil => cases h
  | cons s ss ih =>
    rw [Stmt.kept]
    split
    · rename_i hs
      exact Nat.lt_add_right _ (Size.diverges_pos hs)
    · rename_i hs
      rw [List.any_cons, Bool.eq_false_iff.mpr hs, Bool.false_or] at h
      exact Nat.lt_add_left _ (ih h)

/-! ### Blocks -/

/-- A block of a bound tree, and where its code begins. -/
structure BlockAt where
  block : Block
  pc : Nat

namespace BlockAt

/-- Where the code of the block ends. -/
def stop (b : BlockAt) : Nat := b.pc + Size.block b.block

/-- The address is in the block, behind a statement that control never passes. -/
def Dead (b : BlockAt) (a : Nat) : Prop :=
  b.block.stmts.any Stmt.diverges = true ∧ b.pc + Size.stmts (Stmt.kept b.block.stmts) ≤ a ∧ a < b.stop

end BlockAt

namespace Blocks

mutual

/-- The blocks of an expression whose code stands at `pc`. -/
def expr (pc : Nat) : Expr → List BlockAt
  | .unit | .int _ | .float _ | .bool _ | .text _ | .load _ | .function _ | .imported _ => []
  | .both left right => expr pc left ++ expr (pc + Size.expr left + 1) right
  | .either left right => expr pc left ++ expr (pc + Size.expr left + 3) right
  | .operate _ left right | .index left right => expr pc left ++ expr (pc + Size.expr left) right
  | .unary _ operand => expr pc operand
  | .call callee args => expr pc callee ++ exprs (pc + Size.expr callee) args
  | .intrinsic _ args | .list args => exprs pc args
  | .branch condition body otherwise =>
    let start := pc + Size.expr condition + 1
    expr pc condition ++ block start body ++ block (start + Size.block body + 1) otherwise
  | .block b => block pc b

def exprs (pc : Nat) : List Expr → List BlockAt
  | [] => []
  | e :: es => expr pc e ++ exprs (pc + Size.expr e) es

def stmt (pc : Nat) : Stmt → List BlockAt
  | .store _ value _ | .eval value _ | .ret value _ => expr pc value
  | .setIndex base position value _ =>
    expr pc base ++ expr (pc + Size.expr base) position ++ expr (pc + Size.expr base + Size.expr position) value
  | .loop condition body _ => expr pc condition ++ block (pc + Size.expr condition + 1) body
  | .leave _ | .next _ => []

def stmts (pc : Nat) : List Stmt → List BlockAt
  | [] => []
  | s :: ss => stmt pc s ++ stmts (pc + Size.stmt s) ss

def tail (pc : Nat) : Tail → List BlockAt
  | .nothing => []
  | .value e _ => expr pc e

def block (pc : Nat) : Block → List BlockAt
  | .mk body last => ⟨.mk body last, pc⟩ :: (stmts pc body ++ tail (pc + Size.stmts body) last)

end

end Blocks

/-- An address is dead in one of the blocks. -/
def Dead (blocks : List BlockAt) (a : Nat) : Prop := ∃ b ∈ blocks, b.Dead a

theorem BlockAt.Dead.lt {b : BlockAt} {a : Nat} (h : b.Dead a) : b.pc < a := by
  have := Size.kept_pos h.1
  have := h.2.1
  omega

theorem not_dead_nil (a : Nat) : ¬ Dead [] a := fun ⟨_, hb, _⟩ => nomatch hb

theorem dead_cons {b : BlockAt} {blocks : List BlockAt} {a : Nat} : Dead (b :: blocks) a ↔ b.Dead a ∨ Dead blocks a := by
  simp only [Dead, List.mem_cons, or_and_right, exists_or, exists_eq_left]

theorem dead_append {xs ys : List BlockAt} {a : Nat} : Dead (xs ++ ys) a ↔ Dead xs a ∨ Dead ys a := by
  simp only [Dead, List.mem_append, or_and_right, exists_or]

theorem not_dead_append {xs ys : List BlockAt} {a : Nat} (h : ¬ Dead xs a) (h' : ¬ Dead ys a) : ¬ Dead (xs ++ ys) a :=
  fun dead => (dead_append.mp dead).elim h h'

/-! ### Code without ways to dead addresses -/

/-- The code from `pc` to `stop`, in which these blocks stand. Unless an instruction of it is dead, control goes on from
    there in the code or right behind it, but to no dead address, or to one of the targets. -/
structure Contained (r : Routine) (targets : Nat → Prop) (pc stop : Nat) (blocks : List BlockAt) : Prop where
  le : pc ≤ stop
  inside : ∀ b ∈ blocks, pc ≤ b.pc ∧ b.stop ≤ stop
  stands : ∀ b ∈ blocks, ∃ loop, Stands.block r loop b.pc b.block
  flow : ∀ {a next : Nat} {i : Instr}, pc ≤ a → a < stop → ¬ Dead blocks a → r.Holds a i → next ∈ i.exits a →
    pc ≤ next ∧ next ≤ stop ∧ ¬ Dead blocks next ∨ targets next

/-- Targets, and addresses beside them. -/
def With (targets : Nat → Prop) (labels : List Nat) (a : Nat) : Prop := a ∈ labels ∨ targets a

section
variable {r : Routine} {targets : Nat → Prop} {pc m stop : Nat} {xs ys : List BlockAt}

/-- Dead addresses are within the code, and its beginning is none. -/
theorem Contained.bounds (h : Contained r targets pc stop xs) {a : Nat} (dead : Dead xs a) : pc < a ∧ a < stop := by
  obtain ⟨b, hb, hdead⟩ := dead
  have hlt := hdead.lt
  have hstop := hdead.2.2
  obtain ⟨hpc, hle⟩ := h.inside b hb
  omega

theorem Contained.not_dead (h : Contained r targets pc stop xs) {a : Nat} (ha : a ≤ pc ∨ stop ≤ a) : ¬ Dead xs a := by
  intro dead
  have := h.bounds dead
  omega

theorem Contained.empty (pc : Nat) : Contained r targets pc pc [] :=
  ⟨Nat.le_refl _, fun _ hb => (nomatch hb), fun _ hb => (nomatch hb), fun hle hlt => absurd hlt (Nat.not_lt.mpr hle)⟩

theorem Contained.append {m' : Nat} (h : Contained r targets pc m xs) (h' : Contained r targets m' stop ys)
    (hm : m = m' := by omega) : Contained r targets pc stop (xs ++ ys) := by
  subst hm
  have hle := h.le
  have hle' := h'.le
  refine ⟨Nat.le_trans hle hle', fun b hb => ?_, fun b hb => (List.mem_append.mp hb).elim (h.stands b) (h'.stands b),
    fun {a _ i} hpc hstop hlive hi hnext => ?_⟩
  · rcases List.mem_append.mp hb with hb | hb
    · have := h.inside b hb
      omega
    · have := h'.inside b hb
      omega
  · rw [dead_append, not_or] at hlive
    rcases Nat.lt_or_ge a m with hlt | hge
    · refine (h.flow hpc hlt hlive.1 hi hnext).imp_left fun ⟨hpc, hm, hnext⟩ => ⟨hpc, Nat.le_trans hm hle', ?_⟩
      exact not_dead_append hnext (h'.not_dead (.inl hm))
    · refine (h'.flow hge hstop hlive.2 hi hnext).imp_left fun ⟨hm, hstop, hnext⟩ => ⟨Nat.le_trans hle hm, hstop, ?_⟩
      exact not_dead_append (h.not_dead (.inr hm)) hnext

/-- Code goes on with code that has no blocks. -/
theorem Contained.snoc (h : Contained r targets pc m xs) (h' : Contained r targets m stop []) :
    Contained r targets pc stop xs := List.append_nil xs ▸ h.append h' rfl

theorem Contained.cast {stop' : Nat} (h : Contained r targets pc stop xs) (hstop : stop = stop' := by omega) :
    Contained r targets pc stop' xs := hstop ▸ h

theorem Contained.widen {targets' : Nat → Prop} (h : Contained r targets pc stop xs)
    (himp : ∀ a, targets a → targets' a) : Contained r targets' pc stop xs :=
  ⟨h.le, h.inside, h.stands, fun hpc hstop hlive hi hnext => (h.flow hpc hstop hlive hi hnext).imp_right (himp _)⟩

theorem Contained.with (h : Contained r targets pc stop xs) (labels : List Nat) :
    Contained r (With targets labels) pc stop xs := h.widen fun _ => .inr

/-- Addresses in the code that are not dead need not be named as targets. -/
theorem Contained.without {labels : List Nat} (h : Contained r (With targets labels) pc stop xs)
    (hlabels : ∀ a ∈ labels, pc ≤ a ∧ a ≤ stop ∧ ¬ Dead xs a) : Contained r targets pc stop xs :=
  ⟨h.le, h.inside, h.stands, fun hpc hstop hlive hi hnext =>
    (h.flow hpc hstop hlive hi hnext).elim .inl fun hnext => hnext.imp_left (hlabels _)⟩

/-! ### Instructions -/

/-- One instruction, from where control goes on behind it or to a target. -/
theorem contained_of_holds {i : Instr} (hi : r.Holds pc i) (hexits : ∀ next ∈ i.exits pc, next = pc + 1 ∨ targets next) :
    Contained r targets pc (pc + 1) [] := by
  refine ⟨Nat.le_succ _, fun _ hb => (nomatch hb), fun _ hb => (nomatch hb), fun {a _ j} hpc hstop _ hj hnext => ?_⟩
  obtain rfl : a = pc := by omega
  obtain rfl := Option.some.inj (hi.symm.trans hj)
  refine (hexits _ hnext).imp_left fun heq => ?_
  exact ⟨by omega, Nat.le_of_eq heq, not_dead_nil _⟩

theorem contained_next {i : Instr} (hi : r.Holds pc i) (hexits : i.exits pc = [pc + 1]) :
    Contained r targets pc (pc + 1) [] :=
  contained_of_holds hi fun _ hnext => .inl (List.mem_singleton.mp (hexits ▸ hnext))

theorem contained_constant {c : Constant} (h : r.ConstantAt pc c) : Contained r targets pc (pc + 1) [] := by
  obtain ⟨x, hx, -⟩ := h
  exact contained_next hx rfl

theorem contained_load {place : Place} (h : r.LoadsAt pc place) : Contained r targets pc (pc + 1) [] := by
  cases place with
  | frame index =>
    obtain ⟨i, hi, -⟩ := h
    exact contained_next hi rfl
  | slot record index =>
    obtain ⟨w, i, hi, -⟩ := h
    exact contained_next hi rfl

theorem contained_store {place : Place} (h : r.StoresAt pc place) : Contained r targets pc (pc + 1) [] := by
  cases place with
  | frame index =>
    obtain ⟨i, hi, -⟩ := h
    exact contained_next hi rfl
  | slot record index =>
    obtain ⟨w, i, hi, -⟩ := h
    exact contained_next hi rfl

theorem contained_unary {op : UnaryOp} (h : r.Holds pc (unaryInstr op)) : Contained r targets pc (pc + 1) [] := by
  cases op with
  | neg => exact contained_next (i := .neg) h rfl
  | not => exact contained_next (i := .not) h rfl

theorem contained_ret (h : r.Holds pc .ret) : Contained r targets pc (pc + 1) [] :=
  contained_of_holds h fun _ hnext => nomatch hnext

theorem contained_jump {target : Nat} (h : r.JumpsAt pc target) (htarget : targets target) :
    Contained r targets pc (pc + 1) [] := by
  obtain ⟨x, hx, rfl⟩ := h
  exact contained_of_holds hx fun _ hnext => .inr (List.mem_singleton.mp hnext ▸ htarget)

theorem contained_branch {target : Nat} (h : r.BranchesAt pc target) (htarget : targets target) :
    Contained r targets pc (pc + 1) [] := by
  obtain ⟨x, hx, rfl⟩ := h
  refine contained_of_holds hx fun next hnext => ?_
  rcases List.mem_cons.mp hnext with rfl | hnext
  · exact .inl rfl
  · exact .inr (List.mem_singleton.mp hnext ▸ htarget)

/-! ### Statements that control never passes -/

/-- Unless an instruction of the code is dead, control goes on from there in the code, but to no dead address, or to one
    of the targets. It does not pass the end. -/
def Closed (r : Routine) (targets : Nat → Prop) (pc stop : Nat) (blocks : List BlockAt) : Prop :=
  ∀ (a next : Nat) (i : Instr), pc ≤ a → a < stop → ¬ Dead blocks a → r.Holds a i → next ∈ i.exits a →
    pc ≤ next ∧ next < stop ∧ ¬ Dead blocks next ∨ targets next

/-- Code behind it makes no difference to closed code. -/
theorem Closed.append {m' : Nat} (h : Closed r targets pc m xs) (h' : Contained r targets m' stop ys) (hm : m ≤ m') :
    Closed r targets pc m (xs ++ ys) := by
  intro a next i hpc hlt hlive hi hnext
  rw [dead_append, not_or] at hlive
  refine (h a next i hpc hlt hlive.1 hi hnext).imp_left fun ⟨hpc, hlt, hnext⟩ => ⟨hpc, hlt, ?_⟩
  exact not_dead_append hnext (h'.not_dead (.inl (Nat.le_trans (Nat.le_of_lt hlt) hm)))

/-- Code that goes on with closed code is closed. -/
theorem Contained.closed {n : Nat} (h : Contained r targets pc m xs) (h' : Contained r targets m stop ys)
    (closed : Closed r targets m n ys) (hlt : m < n) : Closed r targets pc n (xs ++ ys) := by
  intro a next i hpc hn hlive hi hnext
  rw [dead_append, not_or] at hlive
  rcases Nat.lt_or_ge a m with hm | hm
  · refine (h.flow hpc hm hlive.1 hi hnext).imp_left fun ⟨hpc, hm, hnext⟩ => ⟨hpc, Nat.lt_of_le_of_lt hm hlt, ?_⟩
    exact not_dead_append hnext (h'.not_dead (.inl hm))
  · refine (closed a next i hm hn hlive.2 hi hnext).imp_left fun ⟨hm, hn, hnext⟩ => ⟨Nat.le_trans h.le hm, hn, ?_⟩
    exact not_dead_append (h.not_dead (.inr hm)) hnext

/-- The code of a block that is left in its statements: what is behind them is dead. -/
theorem Closed.block {body : List Stmt} {last : Tail} (closed : Closed r targets pc (pc + Size.stmts (Stmt.kept body)) xs)
    (diverges : body.any Stmt.diverges = true) (code : Contained r targets pc (pc + Size.block (.mk body last)) xs)
    (stands : ∃ loop, Stands.block r loop pc (.mk body last)) :
    Contained r targets pc (pc + Size.block (.mk body last)) (⟨.mk body last, pc⟩ :: xs) := by
  refine ⟨code.le, List.forall_mem_cons.mpr ⟨⟨Nat.le_refl _, Nat.le_refl _⟩, code.inside⟩,
    List.forall_mem_cons.mpr ⟨stands, code.stands⟩, fun {a _ i} hpc hstop hlive hi hnext => ?_⟩
  rw [dead_cons, not_or] at hlive
  have hcut : a < pc + Size.stmts (Stmt.kept body) :=
    Nat.lt_of_not_le fun hle => hlive.1 ⟨diverges, hle, hstop⟩
  refine (closed _ _ i hpc hcut hlive.2 hi hnext).imp_left fun ⟨hpc, hcut, hnext⟩ => ⟨hpc, ?_, fun dead => ?_⟩
  · have := Size.kept_le body
    rw [Size.block]
    omega
  · exact (dead_cons.mp dead).elim (fun own => absurd own.2.1 (Nat.not_le.mpr hcut)) hnext

/-- The code of a block that is not left in its statements. -/
theorem Contained.block {body : List Stmt} {last : Tail} (passes : body.any Stmt.diverges = false)
    (code : Contained r targets pc (pc + Size.block (.mk body last)) xs)
    (stands : ∃ loop, Stands.block r loop pc (.mk body last)) :
    Contained r targets pc (pc + Size.block (.mk body last)) (⟨.mk body last, pc⟩ :: xs) := by
  have own (a : Nat) : ¬ BlockAt.Dead ⟨.mk body last, pc⟩ a := fun dead => Bool.noConfusion (passes.symm.trans dead.1)
  refine ⟨code.le, List.forall_mem_cons.mpr ⟨⟨Nat.le_refl _, Nat.le_refl _⟩, code.inside⟩,
    List.forall_mem_cons.mpr ⟨stands, code.stands⟩, fun {a _ i} hpc hstop hlive hi hnext => ?_⟩
  rw [dead_cons, not_or] at hlive
  refine (code.flow hpc hstop hlive.2 hi hnext).imp_left fun ⟨hpc, hstop, hnext⟩ => ⟨hpc, hstop, fun dead => ?_⟩
  exact (dead_cons.mp dead).elim (own _) hnext

end

/-! ### Trees -/

/-- The addresses that the jumps out of the innermost loop go to. -/
def LoopTargets.Named (loop : Option LoopTargets) (a : Nat) : Prop :=
  ∃ targets, loop = some targets ∧ (a = targets.start ∨ a = targets.exit)

section
variable {r : Routine}

mutual

/-- The code of an expression leads to no dead address in it. -/
theorem expr_contained {loop : Option LoopTargets} {pc : Nat} : (e : Expr) → Stands.expr r loop pc e →
    Contained r (LoopTargets.Named loop) pc (pc + Size.expr e) (Blocks.expr pc e)
  | .unit, h => contained_next h rfl
  | .bool _, h => contained_next h rfl
  | .int _, h => contained_constant h
  | .float _, h => contained_constant h
  | .text _, h => contained_constant h
  | .load _, h => contained_load h
  | .function _, ⟨_, h, _⟩ => contained_next h rfl
  | .imported _, ⟨_, h, _⟩ => contained_next h rfl
  | .both left right, h => by
    obtain ⟨hl, hbl, hr, hbr, htrue, hjump, hfalse⟩ := h
    obtain ⟨fails, hfails⟩ : ∃ fails, fails = pc + Size.expr left + 1 + Size.expr right + 3 := ⟨_, rfl⟩
    rw [← hfails] at hbl hbr hjump hfalse
    have cl := (expr_contained left hl).with [fails, fails + 1]
    have cr := (expr_contained right hr).with [fails, fails + 1]
    have sides := (cl.snoc (contained_branch hbl (.inl (.head _)))).append cr rfl
    have code := (sides.snoc (contained_branch hbr (.inl (.head _)))).snoc (contained_next htrue rfl)
    have code := (code.snoc (contained_jump hjump (.inl (.tail _ (.head _))))).cast.snoc (contained_next hfalse rfl)
    refine (code.without (List.forall_mem_cons.mpr ⟨?_, List.forall_mem_singleton.mpr ?_⟩)).cast
      (by simp only [Size.expr]; omega)
    · exact ⟨by omega, by omega, sides.not_dead (.inr (by omega))⟩
    · exact ⟨by omega, by omega, code.not_dead (.inr (by omega))⟩
  | .either left right, h => by
    obtain ⟨hl, hbl, htrue₁, hjump₁, hr, hbr, htrue₂, hjump₂, hfalse⟩ := h
    obtain ⟨second, hsecond⟩ : ∃ second, second = pc + Size.expr left + 3 := ⟨_, rfl⟩
    rw [← hsecond] at hbl hjump₁ hr hbr htrue₂ hjump₂ hfalse
    obtain ⟨fails, hfails⟩ : ∃ fails, fails = second + Size.expr right + 3 := ⟨_, rfl⟩
    rw [← hfails] at hjump₁ hbr hjump₂ hfalse
    have cl := (expr_contained left hl).with [second, fails, fails + 1]
    have cr := (expr_contained right hr).with [second, fails, fails + 1]
    have code := (cl.snoc (contained_branch hbl (.inl (.head _)))).snoc (contained_next htrue₁ rfl)
    have sides := (code.snoc (contained_jump hjump₁ (.inl (.tail _ (.tail _ (.head _)))))).append cr
    have code := (sides.snoc (contained_branch hbr (.inl (.tail _ (.head _))))).snoc (contained_next htrue₂ rfl)
    have code := (code.snoc (contained_jump hjump₂ (.inl (.tail _ (.tail _ (.head _)))))).cast.snoc (contained_next hfalse rfl)
    rw [Blocks.expr, ← hsecond]
    refine (code.without (List.forall_mem_cons.mpr ⟨?_, List.forall_mem_cons.mpr ⟨?_,
      List.forall_mem_singleton.mpr ?_⟩⟩)).cast (by simp only [Size.expr]; omega)
    · exact ⟨by omega, by omega, not_dead_append (cl.not_dead (.inr (by omega))) (cr.not_dead (.inl (Nat.le_refl _)))⟩
    · exact ⟨by omega, by omega, sides.not_dead (.inr (by omega))⟩
    · exact ⟨by omega, by omega, code.not_dead (.inr (by omega))⟩
  | .operate op left right, ⟨hl, hr, hop⟩ =>
    (((expr_contained left hl).append (expr_contained right hr)).snoc (contained_next hop rfl)).cast
      (by simp only [Size.expr]; omega)
  | .unary op operand, ⟨he, hop⟩ => (expr_contained operand he).snoc (contained_unary hop)
  | .call callee args, ⟨hc, ha, argc, hcall, _⟩ =>
    (((expr_contained callee hc).append (exprs_contained args ha)).snoc (contained_next hcall rfl)).cast
      (by simp only [Size.expr]; omega)
  | .intrinsic i args, ⟨ha, argc, hcall, _⟩ => (exprs_contained args ha).snoc (contained_next hcall rfl)
  | .index base position, ⟨hb, hp, hindex⟩ =>
    (((expr_contained base hb).append (expr_contained position hp)).snoc (contained_next hindex rfl)).cast
      (by simp only [Size.expr]; omega)
  | .list items, ⟨ha, count, hmake, _⟩ => (exprs_contained items ha).snoc (contained_next hmake rfl)
  | .branch condition body otherwise, h => by
    obtain ⟨hc, hbranch, hb, hjump, ho⟩ := h
    obtain ⟨start, hstart⟩ : ∃ start, start = pc + Size.expr condition + 1 := ⟨_, rfl⟩
    rw [← hstart] at hbranch hb hjump ho
    obtain ⟨second, hsecond⟩ : ∃ second, second = start + Size.block body + 1 := ⟨_, rfl⟩
    rw [← hsecond] at hbranch hjump ho
    have cc := (expr_contained condition hc).with [second, second + Size.block otherwise]
    have cb := (block_contained body hb).with [second, second + Size.block otherwise]
    have co := (block_contained otherwise ho).with [second, second + Size.block otherwise]
    have front := (cc.snoc (contained_branch hbranch (.inl (.head _)))).append cb
    have code := (front.snoc (contained_jump hjump (.inl (.tail _ (.head _))))).append co
    simp only [Blocks.expr, ← hstart, ← hsecond]
    refine (code.without (List.forall_mem_cons.mpr ⟨?_, List.forall_mem_singleton.mpr ?_⟩)).cast
      (by simp only [Size.expr]; omega)
    · exact ⟨by omega, by omega, not_dead_append (front.not_dead (.inr (by omega))) (co.not_dead (.inl (Nat.le_refl _)))⟩
    · exact ⟨by omega, by omega, code.not_dead (.inr (Nat.le_refl _))⟩
  | .block b, h => block_contained b h

theorem exprs_contained {loop : Option LoopTargets} {pc : Nat} : (es : List Expr) → Stands.exprs r loop pc es →
    Contained r (LoopTargets.Named loop) pc (pc + Size.exprs es) (Blocks.exprs pc es)
  | [], _ => .empty pc
  | e :: es, ⟨he, hes⟩ => ((expr_contained e he).append (exprs_contained es hes)).cast (Nat.add_assoc ..)

theorem stmt_contained {loop : Option LoopTargets} {pc : Nat} : (s : Stmt) → Stands.stmt r loop pc s →
    Contained r (LoopTargets.Named loop) pc (pc + Size.stmt s) (Blocks.stmt pc s)
  | .store _ value _, ⟨hv, hstore⟩ => (expr_contained value hv).snoc (contained_store hstore)
  | .eval e _, ⟨he, hpop⟩ => (expr_contained e he).snoc (contained_next hpop rfl)
  | .ret value _, ⟨hv, hret⟩ => (expr_contained value hv).snoc (contained_ret hret)
  | .setIndex base position value _, ⟨hb, hp, hv, hset⟩ =>
    ((((expr_contained base hb).append (expr_contained position hp)).append (expr_contained value hv)).snoc
      (contained_next hset rfl)).cast (by simp only [Size.stmt]; omega)
  | .loop condition body _, h => by
    obtain ⟨hc, hbranch, hb, hpop, hjump⟩ := h
    obtain ⟨exit, hexit⟩ : ∃ exit, exit = pc + Size.expr condition + 1 + Size.block body + 2 := ⟨_, rfl⟩
    rw [← hexit] at hbranch hb
    have cc := (expr_contained condition hc).with [pc, exit]
    -- The jumps out of the loop that are in its body go to its beginning and to its end.
    have cb : Contained r (With (LoopTargets.Named loop) [pc, exit]) _ _ _ := (block_contained body hb).widen <| by
      rintro a ⟨targets, heq, rfl | rfl⟩
      · cases heq
        exact .inl (.head _)
      · cases heq
        exact .inl (.tail _ (.head _))
    have code := (cc.snoc (contained_branch hbranch (.inl (.tail _ (.head _))))).append cb rfl
    have code : Contained r _ pc exit _ :=
      ((code.snoc (contained_next hpop rfl)).snoc (contained_jump hjump (.inl (.head _)))).cast
    refine (code.without (List.forall_mem_cons.mpr ⟨?_, List.forall_mem_singleton.mpr ?_⟩)).cast
      (by simp only [Size.stmt]; omega)
    · exact ⟨Nat.le_refl _, code.le, code.not_dead (.inl (Nat.le_refl _))⟩
    · exact ⟨code.le, Nat.le_refl _, code.not_dead (.inr (Nat.le_refl _))⟩
  | .leave _, ⟨targets, hloop, hjump⟩ => contained_jump hjump ⟨targets, hloop, .inr rfl⟩
  | .next _, ⟨targets, hloop, hjump⟩ => contained_jump hjump ⟨targets, hloop, .inl rfl⟩

theorem stmts_contained {loop : Option LoopTargets} {pc : Nat} : (ss : List Stmt) → Stands.stmts r loop pc ss →
    Contained r (LoopTargets.Named loop) pc (pc + Size.stmts ss) (Blocks.stmts pc ss)
  | [], _ => .empty pc
  | s :: ss, ⟨hs, hss⟩ => ((stmt_contained s hs).append (stmts_contained ss hss)).cast (Nat.add_assoc ..)

/-- Control does not pass a statement that leaves the block. -/
theorem stmt_closed {loop : Option LoopTargets} {pc : Nat} : (s : Stmt) → s.diverges = true → Stands.stmt r loop pc s →
    Closed r (LoopTargets.Named loop) pc (pc + Size.stmt s) (Blocks.stmt pc s)
  | .ret value line, _, ⟨hv, hret⟩ => by
    have code := expr_contained value hv
    intro a next i hpc hstop hlive hi hnext
    rcases Nat.lt_succ_iff_lt_or_eq.mp hstop with hlt | rfl
    · exact (code.flow hpc hlt hlive hi hnext).imp_left fun ⟨hpc, hle, hnext⟩ => ⟨hpc, Nat.lt_succ_of_le hle, hnext⟩
    · obtain rfl := Option.some.inj (hret.symm.trans hi)
      cases hnext
  | .leave _, _, ⟨targets, hloop, x, hx, hexit⟩ => by
    intro a next i hpc hstop _ hi hnext
    obtain rfl : a = pc := Nat.le_antisymm (Nat.lt_succ_iff.mp hstop) hpc
    obtain rfl := Option.some.inj (hx.symm.trans hi)
    exact .inr ⟨targets, hloop, .inr (List.mem_singleton.mp hnext ▸ hexit)⟩
  | .next _, _, ⟨targets, hloop, x, hx, hstart⟩ => by
    intro a next i hpc hstop _ hi hnext
    obtain rfl : a = pc := Nat.le_antisymm (Nat.lt_succ_iff.mp hstop) hpc
    obtain rfl := Option.some.inj (hx.symm.trans hi)
    exact .inr ⟨targets, hloop, .inl (List.mem_singleton.mp hnext ▸ hstart)⟩

theorem stmts_closed {loop : Option LoopTargets} {pc : Nat} : (ss : List Stmt) → ss.any Stmt.diverges = true →
    Stands.stmts r loop pc ss →
    Closed r (LoopTargets.Named loop) pc (pc + Size.stmts (Stmt.kept ss)) (Blocks.stmts pc ss)
  | s :: ss, h, ⟨hs, hss⟩ => by
    rw [Stmt.kept]
    split
    · rename_i hdiverges
      exact (stmt_closed s hdiverges hs).append (stmts_contained ss hss) (Nat.le_refl _)
    · rename_i hpasses
      rw [List.any_cons, Bool.eq_false_iff.mpr hpasses, Bool.false_or] at h
      have closed := (stmt_contained s hs).closed (stmts_contained ss hss) (stmts_closed ss h hss)
        (Nat.lt_add_of_pos_right (Size.kept_pos h))
      rwa [Nat.add_assoc] at closed

theorem tail_contained {loop : Option LoopTargets} {pc : Nat} : (t : Tail) → Stands.tail r loop pc t →
    Contained r (LoopTargets.Named loop) pc (pc + Size.tail t) (Blocks.tail pc t)
  | .nothing, h => contained_next h rfl
  | .value e _, h => expr_contained e h

theorem block_contained {loop : Option LoopTargets} {pc : Nat} : (b : Block) → Stands.block r loop pc b →
    Contained r (LoopTargets.Named loop) pc (pc + Size.block b) (Blocks.block pc b)
  | .mk body last, ⟨hbody, hlast⟩ => by
    have code : Contained r (LoopTargets.Named loop) pc (pc + Size.block (.mk body last)) _ :=
      ((stmts_contained body hbody).append (tail_contained last hlast)).cast (by rw [Size.block]; omega)
    have stands : ∃ loop, Stands.block r loop pc (.mk body last) := ⟨loop, hbody, hlast⟩
    rw [Blocks.block]
    cases hleaves : body.any Stmt.diverges with
    | false => exact code.block hleaves stands
    | true =>
      have closed := (stmts_closed body hleaves hbody).append (tail_contained last hlast)
        (Nat.add_le_add_left (Size.kept_le body) pc)
      exact closed.block hleaves code stands

end

end

/-! ### Functions -/

section
variable {r : Routine} {p : Bound.Program} {index : Nat} {f : Func}

/-- The blocks of the function at a position of a unit. -/
def Blocks.function (p : Bound.Program) (index : Nat) (f : Func) : List BlockAt :=
  Blocks.block (Size.opening p index) f.body

theorem stores_contained {targets : Nat → Prop} {record pc : Nat} {ss : List FunctionSlot}
    (h : Stands.stores r record pc ss) : Contained r targets pc (pc + ss.length * 2) [] := by
  induction ss generalizing pc with
  | nil => exact .empty pc
  | cons s ss ih =>
    obtain ⟨⟨i, hload, -⟩, hstore, hrest⟩ := h
    exact (((contained_next hload rfl).snoc (contained_store hstore)).snoc (ih hrest)).cast
      (by rw [List.length_cons]; omega)

theorem opening_contained {targets : Nat → Prop} (h : Stands.opening r p index) :
    Contained r targets 0 (Size.opening p index) [] := by
  unfold Size.opening
  cases hopening : opening? p index with
  | none => exact .empty 0
  | some record =>
    obtain ⟨hopen, hstores⟩ := h record hopening
    exact ((contained_next hopen rfl).snoc (stores_contained hstores)).cast (Nat.add_comm ..)

/-- In the code of a function, no way leads to a dead address. -/
theorem function_contained (h : Stands.function r p index f) :
    Contained r (fun _ => False) 0 r.code.size (Blocks.function p index f) := by
  have body : Contained r (fun _ => False) _ _ (Blocks.function p index f) :=
    (block_contained f.body h.body).widen fun _ ⟨_, hloop, _⟩ => nomatch hloop
  exact (((opening_contained h.opening).append body).snoc (contained_ret h.last)).cast h.size.symm

end
end Lowering

/-! ### Runs -/

/-- No run executes the instruction at an address of a function, from whatever function and with whatever variables and
    lists it starts. -/
def Program.Skips (p : Program) (c : Callable) (pc : Nat) : Prop :=
  ∀ (env : Machine.Env) (entry : Callable) (records : Records) (heap : Heap) (start m : Machine) (n : Nat),
    env.program = p → Machine.start? p entry records heap = some start → Machine.Steps env n start m →
    m.frame.callee = c → m.frame.pc ≠ pc

namespace Machine
open Lowering

/-- No frame of a function is at a dead address. -/
structure Spares (c : Callable) (blocks : List BlockAt) (m : Machine) : Prop where
  frame : m.frame.callee = c → ¬ Dead blocks m.frame.pc
  callers : ∀ f ∈ m.callers.items, f.callee = c → ¬ Dead blocks f.pc

variable {env : Env} {m m' : Machine} {c : Callable} {code : CodeModule} {r : Routine} {blocks : List BlockAt}

theorem Spares.next (h : m.Spares c blocks) (placed : m.Placed env.program) (hcode : env.program.module? c.home = some code)
    (hr : code.functions[c.index]? = some r) (contained : Contained r (fun _ => False) 0 r.code.size blocks)
    (first : Next env m m') : m'.Spares c blocks := by
  obtain ⟨i, hi, inv⟩ := next_inv first
  -- Wherever control goes in the function, it was not at a dead address and does not come to one.
  have exits (hcallee : m.frame.callee = c) {next : Nat} (hnext : next ∈ i.exits m.frame.pc) : ¬ Dead blocks next := by
    obtain rfl : m.frame.code = code := Option.some.inj ((hcallee ▸ placed.frame.code).symm.trans hcode)
    obtain rfl : m.frame.routine = r := Option.some.inj ((hcallee ▸ placed.frame.routine).symm.trans hr)
    have hlt := (Array.getElem?_eq_some_iff.mp hi).1
    exact (contained.flow (Nat.zero_le _) hlt (h.frame hcallee) hi hnext).elim (·.2.2) False.elim
  obtain moves | ⟨argc, rfl, enters⟩ | ⟨-, leaves⟩ := inv
  · obtain ⟨pc, locals, hframe, hpc, -⟩ := moves.frame
    refine ⟨fun hcallee => ?_, moves.callers ▸ h.callers⟩
    rw [hframe] at hcallee ⊢
    exact exits hcallee hpc
  · obtain ⟨args, c', code', routine, -, -, -, -, -, hframe⟩ := enters.frame
    refine ⟨fun _ => ?_, fun f hf hcallee => ?_⟩
    · rw [hframe]
      exact contained.not_dead (.inl (Nat.le_refl _))
    · rw [enters.callers] at hf
      rcases List.mem_cons.mp hf with rfl | hf
      · exact exits hcallee (.head _)
      · exact h.callers f hf hcallee
  · have hcallers := h.callers
    rw [leaves.callers] at hcallers
    exact ⟨hcallers _ (.head _), fun f hf => hcallers f (.tail _ hf)⟩

/-- What is dead in the code of a function is not executed. -/
theorem skips_of_dead {program : Program} {p : Bound.Program} {index : Nat} {f : Func}
    (hcode : program.module? c.home = some code) (hr : code.functions[c.index]? = some r)
    (stands : Stands.function r p index f) {pc : Nat} (dead : Dead (Blocks.function p index f) pc) : program.Skips c pc := by
  rintro env entry records heap start m n rfl hstart steps hcallee rfl
  have contained := function_contained stands
  have begins : start.Spares c (Blocks.function p index f) := by
    obtain ⟨code', -, hstart⟩ := Option.bind_eq_some_iff.mp hstart
    obtain ⟨routine, -, hstart⟩ := Option.bind_eq_some_iff.mp hstart
    cases hstart
    exact ⟨fun _ => contained.not_dead (.inl (Nat.le_refl _)), fun f hf => nomatch hf⟩
  have kept := steps.keeps (P := fun m => m.Placed env.program ∧ m.Spares c (Blocks.function p index f))
    (fun ⟨placed, spares⟩ first => ⟨placed.next first, spares.next placed hcode hr contained first⟩)
    ⟨start_placed hstart, begins⟩
  exact kept.2.frame hcallee dead

end Machine
end ScriptEngine
