import ScriptEngine.Proofs.Layout
import ScriptEngine.Proofs.Scoping
import ScriptEngine.Proofs.TreeVolume

/-! How large the code of a unit can be. What binding makes of a tree is not larger than the tree (`Binder.hands_block`),
    and emission adds to the tables of a routine no more than was bound (`Lowering.fills_block`), so every part of an image
    is bounded by the volume of the fragment that it was made from. -/

namespace ScriptEngine
namespace Lowering

/-! ### Tables -/

namespace Fill

mutual

/-- How much the tables of a routine may grow by an expression: its constants and the bytes of its texts, and a mark for
    the line of each statement and each tail. -/
def expr : Bound.Expr → Nat
  | .unit | .bool _ | .load _ | .function _ | .imported _ => 0
  | .int _ | .float _ => 1
  | .text s => s.utf8ByteSize + 1
  | .both left right | .either left right | .operate _ left right | .index left right => expr left + expr right
  | .unary _ operand => expr operand
  | .call callee args => expr callee + exprs args
  | .intrinsic _ args | .list args => exprs args
  | .branch condition body otherwise => expr condition + block body + block otherwise
  | .block b => block b

def exprs : List Bound.Expr → Nat
  | [] => 0
  | e :: es => expr e + exprs es

def stmt : Bound.Stmt → Nat
  | .store _ value _ | .eval value _ | .ret value _ => 1 + expr value
  | .setIndex base position value _ => 1 + expr base + expr position + expr value
  | .loop condition body _ => 1 + expr condition + block body
  | .leave _ | .next _ => 1

def stmts : List Bound.Stmt → Nat
  | [] => 0
  | s :: ss => stmt s + stmts ss

def tail : Bound.Tail → Nat
  | .nothing => 0
  | .value e _ => 1 + expr e

def block : Bound.Block → Nat
  | .mk body last => stmts body + tail last

end

end Fill

/-- Tables have grown by no more than `n`, and every new text is no longer than that. -/
structure Tables.Adds (t : Tables) (n : Nat) (t' : Tables) : Prop where
  lines : t'.lines.length ≤ t.lines.length + n
  constants : t'.constants.size ≤ t.constants.size + n
  texts : ∀ s, .text s ∈ t'.constants → .text s ∈ t.constants ∨ s.utf8ByteSize ≤ n

namespace Tables.Adds

variable {t t' t'' : Tables} {m n : Nat}

theorem refl (t : Tables) : t.Adds 0 t := ⟨Nat.le_refl _, Nat.le_refl _, fun _ h => .inl h⟩

theorem mono (h : t.Adds m t') (hle : m ≤ n) : t.Adds n t' where
  lines := Nat.le_trans h.lines (Nat.add_le_add_left hle _)
  constants := Nat.le_trans h.constants (Nat.add_le_add_left hle _)
  texts s hs := (h.texts s hs).imp id fun hsize => Nat.le_trans hsize hle

theorem trans (h : t.Adds m t') (h' : t'.Adds n t'') : t.Adds (m + n) t'' where
  lines := by
    have := h.lines
    have := h'.lines
    omega
  constants := by
    have := h.constants
    have := h'.constants
    omega
  texts s hs := by
    rcases h'.texts s hs with hs | hsize
    · exact (h.texts s hs).imp id fun hsize => Nat.le_add_right_of_le hsize
    · exact .inr (Nat.le_add_left_of_le hsize)

end Tables.Adds

/-- If code is emitted, the tables grow by no more than `n`. -/
def Fills {α : Type} (n : Nat) (x : Emit α) : Prop := ∀ t t' a, x.run t = .ok (a, t') → t.Adds n t'

section
variable {α β : Type} {x : Emit α} {f : α → Emit β} {m n : Nat} {ctx : Context}

theorem fills_pure {a : α} : Fills 0 (pure a) := fun _ _ _ h => by
  obtain ⟨-, rfl⟩ := run_pure_eq_ok.mp h
  exact .refl _

theorem fills_bind (hx : Fills m x) (hf : ∀ a, Fills n (f a)) : Fills (m + n) (x >>= f) :=
  fun _ _ _ h => by
    obtain ⟨a, t, hrun, hrest⟩ := run_bind_eq_ok.mp h
    exact (hx _ _ _ hrun).trans (hf a _ _ _ hrest)

theorem Fills.mono (hx : Fills m x) (hle : m ≤ n) : Fills n x := fun _ _ _ h => (hx _ _ _ h).mono hle

/-- A step that leaves the tables alone comes last. -/
theorem fills_last (hx : Fills n x) (hf : ∀ a, Fills 0 (f a)) : Fills n (x >>= f) := fills_bind hx hf

/-- A step that leaves the tables alone comes first. -/
theorem fills_after (hx : Fills 0 x) (hf : ∀ a, Fills n (f a)) : Fills n (x >>= f) := by
  have both := fills_bind hx hf
  rwa [Nat.zero_add] at both

theorem fills_guard {c : Prop} [Decidable c] {a : α} {e : EmitError} :
    Fills 0 (if c then pure a else throw e : Emit α) := fun _ _ _ h => by
  obtain ⟨-, -, rfl⟩ := run_guard h
  exact .refl _

theorem fills_setLine {pc line : Nat} : Fills 1 (setLine ctx pc line) := fun _ _ _ h => by
  unfold setLine at h
  obtain ⟨s, t₁, hget, h⟩ := run_bind_eq_ok.mp h
  cases hget
  split at h
  · obtain ⟨-, rfl⟩ := run_pure_eq_ok.mp h
    exact (Tables.Adds.refl _).mono (Nat.zero_le 1)
  · obtain ⟨start, t₂, hstart, hmark⟩ := run_bind_eq_ok.mp h
    obtain ⟨-, rfl⟩ := target_run hstart
    cases hmark
    exact ⟨length_markLine _ _, Nat.le_succ _, fun _ hs => .inl hs⟩

/-- A constant that is new is added, and its text is new with it. -/
theorem fills_constant {c : Constant} (hn : ∀ s, c = .text s → s.utf8ByteSize ≤ n) :
    Fills (n + 1) (constant ctx c) := fun t t' code h => by
  unfold constant at h
  obtain ⟨s, t₁, hget, h⟩ := run_bind_eq_ok.mp h
  cases hget
  have added {index : Nat} {pool : Array Constant} (hpool : pool = t.constants ∨ pool = t.constants.push c)
      (h : (if index < constantLimit then do
        modify fun t => { t with constants := pool }
        return [.const (UInt16.ofNat index)]
      else throw (.tooManyConstants ctx.function) : Emit (List Instr)).run t = .ok (code, t')) :
      t.Adds (n + 1) t' := by
    split at h
    · cases h
      rcases hpool with rfl | rfl
      · exact ⟨Nat.le_add_right .., Nat.le_add_right .., fun _ hs => .inl hs⟩
      · refine ⟨Nat.le_add_right .., ?_, fun s hs => ?_⟩
        · rw [Array.size_push]
          omega
        · rcases Array.mem_push.mp hs with hs | hs
          · exact .inl hs
          · exact .inr (Nat.le_succ_of_le (hn s hs.symm))
    · cases h
  cases hfind : t.constants.findIdx? (· = c) with
  | some i =>
    simp only [hfind] at h
    exact added (.inl rfl) h
  | none =>
    simp only [hfind] at h
    exact added (.inr rfl) h

theorem fills_load {place : Bound.Place} : Fills 0 (load ctx place) := by
  cases place with
  | frame index => exact fills_last fills_guard fun _ => fills_pure
  | slot record index => exact fills_last fills_guard fun _ => fills_last fills_guard fun _ => fills_pure

theorem fills_store {place : Bound.Place} : Fills 0 (store ctx place) := by
  cases place with
  | frame index => exact fills_last fills_guard fun _ => fills_pure
  | slot record index => exact fills_last fills_guard fun _ => fills_last fills_guard fun _ => fills_pure

/-- A jump, or a loop control that stands in no loop. -/
theorem fills_control {keyword : Keyword} {out : LoopTargets → Nat} :
    Fills 0 (match ctx.loop with
      | some targets => do return [.jump (← target ctx (out targets))]
      | none => throw (.strayLoopControl ctx.function keyword) : Emit (List Instr)) := by
  split
  · exact fills_last fills_guard fun _ => fills_pure
  · exact fun _ _ _ h => nomatch h

end

mutual

theorem fills_expr {ctx : Context} (pc : Nat) : (e : Bound.Expr) → Fills (Fill.expr e) (expr ctx pc e)
  | .unit | .bool _ => fills_pure
  | .int _ | .float _ => fills_constant (n := 0) (by nofun)
  | .text s => fills_constant fun _ h => Constant.text.inj h ▸ Nat.le_refl _
  | .load _ => fills_load
  | .function _ | .imported _ => fills_last fills_guard fun _ => fills_pure
  | .both left right =>
    fills_bind (fills_expr _ left) fun _ => fills_last (fills_expr _ right) fun _ =>
      fills_last fills_guard fun _ => fills_last fills_guard fun _ => fills_pure
  | .either left right =>
    fills_bind (fills_expr _ left) fun _ => fills_last (fills_expr _ right) fun _ =>
      fills_last fills_guard fun _ => fills_last fills_guard fun _ => fills_last fills_guard fun _ => fills_pure
  | .operate _ left right | .index left right =>
    fills_bind (fills_expr _ left) fun _ => fills_last (fills_expr _ right) fun _ => fills_pure
  | .unary _ operand => fills_last (fills_expr _ operand) fun _ => fills_pure
  | .call callee args =>
    fills_after fills_guard fun _ => fills_bind (fills_expr _ callee) fun _ =>
      fills_last (fills_exprs _ args) fun _ => fills_pure
  | .intrinsic _ args | .list args =>
    fills_after fills_guard fun _ => fills_last (fills_exprs _ args) fun _ => fills_pure
  | .branch condition body otherwise =>
    .mono (fills_bind (fills_expr _ condition) fun _ => fills_bind (fills_block _ body) fun _ =>
      fills_last (fills_block _ otherwise) fun _ => fills_last fills_guard fun _ =>
        fills_last fills_guard fun _ => fills_pure) (Nat.le_of_eq (Nat.add_assoc ..).symm)
  | .block b => fills_block pc b

theorem fills_exprs {ctx : Context} (pc : Nat) : (es : List Bound.Expr) → Fills (Fill.exprs es) (exprs ctx pc es)
  | [] => fills_pure
  | e :: es => fills_bind (fills_expr pc e) fun _ => fills_last (fills_exprs _ es) fun _ => fills_pure

theorem fills_stmt {ctx : Context} (pc : Nat) : (s : Bound.Stmt) → Fills (Fill.stmt s) (stmt ctx pc s)
  | .store _ value _ =>
    fills_bind fills_setLine fun _ => fills_last (fills_expr _ value) fun _ => fills_last fills_store fun _ => fills_pure
  | .setIndex base position value _ =>
    .mono (fills_bind fills_setLine fun _ => fills_bind (fills_expr _ base) fun _ =>
      fills_bind (fills_expr _ position) fun _ => fills_last (fills_expr _ value) fun _ => fills_pure)
      (by rw [Fill.stmt]; omega)
  | .eval e _ | .ret e _ => fills_bind fills_setLine fun _ => fills_last (fills_expr _ e) fun _ => fills_pure
  | .loop condition body _ =>
    .mono (fills_bind fills_setLine fun _ => fills_bind (fills_expr _ condition) fun _ =>
      fills_last (fills_block _ body) fun _ => fills_last fills_guard fun _ => fills_last fills_guard fun _ => fills_pure)
      (by rw [Fill.stmt]; omega)
  | .leave _ | .next _ => fills_last fills_setLine fun _ => fills_control

theorem fills_stmts {ctx : Context} (pc : Nat) : (ss : List Bound.Stmt) → Fills (Fill.stmts ss) (stmts ctx pc ss)
  | [] => fills_pure
  | s :: ss => fills_bind (fills_stmt pc s) fun _ => fills_last (fills_stmts _ ss) fun _ => fills_pure

theorem fills_tail {ctx : Context} (pc : Nat) : (t : Bound.Tail) → Fills (Fill.tail t) (tail ctx pc t)
  | .nothing => fills_pure
  | .value e _ => fills_bind fills_setLine fun _ => fills_expr pc e

theorem fills_block {ctx : Context} (pc : Nat) : (b : Bound.Block) → Fills (Fill.block b) (block ctx pc b)
  | .mk body last => fills_bind (fills_stmts pc body) fun _ => fills_last (fills_tail _ last) fun _ => fills_pure

end

/-! ### Routines -/

theorem fills_prologue {record : Nat} (ss : List Bound.FunctionSlot) : Fills 0 (prologue record ss) := by
  induction ss with
  | nil => exact fills_pure
  | cons s ss ih =>
    exact fills_last fills_guard fun _ => fills_last fills_guard fun _ => fills_last fills_guard fun _ =>
      fills_last ih fun _ => fills_pure

theorem fills_routineCode {p : Bound.Program} {index : Nat} {f : Bound.Func} :
    Fills (1 + Fill.block f.body) (routineCode p index f) := by
  have opening : Fills 0 (prologueOf p index) := by
    unfold prologueOf
    split
    · split
      · exact fills_last (fills_prologue _) fun _ => fills_pure
      · exact fills_pure
    · exact fills_pure
  refine fills_bind fills_setLine fun _ => fills_after opening fun start => ?_
  exact fills_last (fills_block start.length f.body) fun _ => fills_pure

/-- The tables of a routine hold no more than the function that it was emitted from. -/
theorem routine_fill {p : Bound.Program} {index : Nat} {f : Bound.Func} {r : Routine} (h : routine p index f = .ok r) :
    r.lines.length ≤ 1 + Fill.block f.body ∧ r.constants.size ≤ 1 + Fill.block f.body ∧
      ∀ s, .text s ∈ r.constants → s.utf8ByteSize ≤ 1 + Fill.block f.body := by
  obtain ⟨-, -, code, tables, hcode, rfl⟩ := routine_eq_ok h
  have adds := fills_routineCode _ _ _ hcode
  refine ⟨Nat.le_trans adds.lines (Nat.le_of_eq (Nat.zero_add _)),
    Nat.le_trans adds.constants (Nat.le_of_eq (Nat.zero_add _)), fun s hs => ?_⟩
  exact (adds.texts s hs).resolve_left (Array.not_mem_empty _)

/-! ### Trees -/

namespace Cost

/-- What an expression takes of a routine: instructions, and its share of the tables. -/
def expr (e : Bound.Expr) : Nat := Size.expr e + Fill.expr e

def exprs (es : List Bound.Expr) : Nat := Size.exprs es + Fill.exprs es

def stmt (s : Bound.Stmt) : Nat := Size.stmt s + Fill.stmt s

def stmts (ss : List Bound.Stmt) : Nat := Size.stmts ss + Fill.stmts ss

def tail (t : Bound.Tail) : Nat := Size.tail t + Fill.tail t

def block (b : Bound.Block) : Nat := Size.block b + Fill.block b

theorem exprs_cons (e : Bound.Expr) (es : List Bound.Expr) : exprs (e :: es) = expr e + exprs es := by
  rw [exprs, exprs, expr, Size.exprs, Fill.exprs]
  omega

theorem stmts_cons (s : Bound.Stmt) (ss : List Bound.Stmt) : stmts (s :: ss) = stmt s + stmts ss := by
  rw [stmts, stmts, stmt, Size.stmts, Fill.stmts]
  omega

theorem block_mk (body : List Bound.Stmt) (last : Bound.Tail) : block (.mk body last) = stmts body + tail last := by
  rw [block, stmts, tail, Size.block, Fill.block]
  omega

end Cost
end Lowering

namespace Binder
open Lowering

/-- Whatever state it begins in, binding gives something with a property. -/
def Hands {α : Type} (P : α → Prop) (x : Bind α) : Prop := ∀ s, P (x.run s).1

section
variable {α β : Type} {P : α → Prop} {Q : β → Prop} {x y : Bind α} {f : α → Bind β}

theorem hands_pure {a : α} (h : P a) : Hands P (pure a) := fun _ => h

theorem hands_bind (hx : Hands P x) (hf : ∀ a, P a → Hands Q (f a)) : Hands Q (x >>= f) := fun s => hf _ (hx s) _

/-- What comes first makes no difference. -/
theorem hands_after (hf : ∀ a, Hands Q (f a)) : Hands Q (x >>= f) := fun _ => hf _ _

theorem hands_ite {c : Prop} [Decidable c] (hx : Hands P x) (hy : Hands P y) : Hands P (if c then x else y) := by
  split
  · exact hx
  · exact hy

theorem hands_inScope {ctx : Context} (hx : Hands P x) : Hands P (inScope ctx x) :=
  hands_after fun _ => hands_bind hx fun _ ha => hands_after fun _ => hands_pure ha

end

section
variable {ctx : Context}

theorem hands_nameValue {ident : Ident} : (res : Resolution) → Hands (Cost.expr · = 1) (nameValue ctx ident res)
  | .variable _ | .function .. | .slot .. => hands_pure rfl
  | .imported .. => hands_after fun _ => hands_pure rfl
  | .intrinsic _ | .ambiguous _ | .unknown => hands_after fun _ => hands_pure rfl

theorem hands_pathValue {member : Ident} : (res : Resolution) → Hands (Cost.expr · = 1) (pathValue ctx member res)
  | .imported .. => hands_after fun _ => hands_pure rfl
  | .intrinsic _ => hands_after fun _ => hands_pure rfl
  | .variable _ | .function .. | .slot .. | .ambiguous _ | .unknown => hands_pure rfl

theorem cost_literal (value : Literal) : Cost.expr (literal value) ≤ value.volume := by
  cases value
  all_goals
    simp only [literal, Cost.expr, Size.expr, Fill.expr, Literal.volume]
    omega

theorem cost_binary (op : BinaryOp) (l r : Bound.Expr) : Cost.expr (binary op l r) ≤ Cost.expr l + Cost.expr r + 7 := by
  cases op
  all_goals
    simp only [binary, Cost.expr, Size.expr, Fill.expr]
    omega

/-- A store takes an instruction and a mark. -/
theorem cost_store (place : Bound.Place) (value : Bound.Expr) (line : Nat) :
    Cost.stmt (.store place value line) = Cost.expr value + 2 := by
  simp only [Cost.stmt, Cost.expr, Size.stmt, Fill.stmt]
  omega

theorem none_costs {n : Nat} : ∀ st ∈ (none : Option Bound.Stmt), Cost.stmt st ≤ n := fun st h =>
  absurd h (Option.not_mem_none st)

theorem hands_bindVariable {name : Ident} {mutable : Bool} {value : Option Bound.Expr} {line n : Nat}
    (hvalue : Cost.expr (value.getD .unit) ≤ n) :
    Hands (fun st => ∀ st' ∈ st, Cost.stmt st' ≤ n + 2) (bindVariable ctx name mutable value line) := by
  have stored {place : Bound.Place} {value : Bound.Expr} (h : Cost.expr value ≤ n) :
      ∀ st ∈ some (Bound.Stmt.store place value line), Cost.stmt st ≤ n + 2 := fun st hst => by
    rw [← Option.some.inj hst, cost_store]
    exact Nat.add_le_add_right h 2
  refine hands_after fun s => hands_ite (hands_after fun s => ?_) ?_
  · dsimp only
    split
    · exact hands_after fun _ => hands_pure none_costs
    · refine hands_after fun slot => ?_
      split
      · exact hands_pure (stored hvalue)
      · exact hands_pure none_costs
  · exact hands_after fun _ => hands_pure (stored hvalue)

theorem hands_bindAssign {target : Ident} {value : Bound.Expr} {line n : Nat} (hvalue : Cost.expr value ≤ n) :
    Hands (fun st => ∀ st' ∈ st, Cost.stmt st' ≤ n + 2) (bindAssign ctx target value line) := by
  refine hands_after fun s => hands_after fun place => hands_pure fun st hst => ?_
  obtain ⟨p, -, rfl⟩ := Option.map_eq_some_iff.mp hst
  rw [cost_store]
  exact Nat.add_le_add_right hvalue 2

theorem cost_stmts_append {first : Option Bound.Stmt} {rest : List Bound.Stmt} {m n : Nat}
    (hfirst : ∀ s ∈ first, Cost.stmt s ≤ m) (hrest : Cost.stmts rest ≤ n) :
    Cost.stmts (first.toList ++ rest) ≤ m + n := by
  cases first with
  | none => exact Nat.le_add_left_of_le hrest
  | some s =>
    have hs := hfirst s rfl
    show Cost.stmts (s :: rest) ≤ m + n
    rw [Cost.stmts_cons]
    omega

mutual

theorem hands_expr (inLoop : Bool) : (e : Tree.Expr) → Hands (Cost.expr · ≤ e.volume) (expr ctx inLoop e)
  | .name _ => hands_after fun res s => Nat.le_of_eq (by rw [hands_nameValue res s, Tree.Expr.volume])
  | .path .. => hands_after fun res s => Nat.le_of_eq (by rw [hands_pathValue res s, Tree.Expr.volume])
  | .literal value _ => hands_pure (by rw [Tree.Expr.volume]; exact cost_literal value)
  | .binary op left right _ => by
    refine hands_after fun _ => hands_bind (hands_expr inLoop left) fun l hl => ?_
    refine hands_bind (hands_expr inLoop right) fun r hr => hands_pure (Nat.le_trans (cost_binary op l r) ?_)
    rw [Tree.Expr.volume]
    omega
  | .unary op operand _ => by
    refine hands_bind (hands_expr inLoop operand) fun b hb => hands_pure ?_
    simp only [Cost.expr, Size.expr, Fill.expr, Tree.Expr.volume] at hb ⊢
    omega
  | .call callee args _ => by
    have applied {b : Bound.Expr} {bs : List Bound.Expr} (hb : Cost.expr b ≤ callee.volume)
        (hbs : Cost.exprs bs ≤ Tree.Expr.volumeAll args) (span : Span) :
        Cost.expr (.call b bs) ≤ (Tree.Expr.call callee args span).volume := by
      simp only [Cost.expr, Cost.exprs, Size.expr, Fill.expr, Tree.Expr.volume] at hb hbs ⊢
      omega
    have computed {i : Intrinsic} {bs : List Bound.Expr} (hbs : Cost.exprs bs ≤ Tree.Expr.volumeAll args) (span : Span) :
        Cost.expr (.intrinsic i bs) ≤ (Tree.Expr.call callee args span).volume := by
      simp only [Cost.expr, Cost.exprs, Size.expr, Fill.expr, Tree.Expr.volume] at hbs ⊢
      omega
    unfold expr
    split
    · refine hands_after fun res => hands_after fun _ => hands_bind (hands_exprs inLoop args) fun bs hbs => ?_
      split
      · exact hands_pure (computed hbs _)
      · refine hands_bind (hands_nameValue res) fun b hb => hands_pure (applied ?_ hbs _)
        exact Nat.le_of_eq (by rw [hb, Tree.Expr.volume])
    · refine hands_after fun res => hands_after fun _ => hands_bind (hands_exprs inLoop args) fun bs hbs => ?_
      split
      · exact hands_pure (computed hbs _)
      · refine hands_bind (hands_pathValue res) fun b hb => hands_pure (applied ?_ hbs _)
        exact Nat.le_of_eq (by rw [hb, Tree.Expr.volume])
    · refine hands_bind (hands_exprs inLoop args) fun bs hbs => ?_
      exact hands_bind (hands_expr inLoop callee) fun b hb => hands_pure (applied hb hbs _)
  | .index base position _ => by
    refine hands_bind (hands_expr inLoop base) fun b hb => ?_
    refine hands_bind (hands_expr inLoop position) fun p hp => hands_pure ?_
    simp only [Cost.expr, Size.expr, Fill.expr, Tree.Expr.volume] at hb hp ⊢
    omega
  | .list items _ => by
    refine hands_bind (hands_exprs inLoop items) fun bs hbs => hands_pure ?_
    simp only [Cost.expr, Cost.exprs, Size.expr, Fill.expr, Tree.Expr.volume] at hbs ⊢
    omega
  | .branch b => hands_branch inLoop b
  | .block b => hands_bind (hands_inScope (hands_block inLoop b)) fun _ hb => hands_pure hb

theorem hands_exprs (inLoop : Bool) : (es : List Tree.Expr) →
    Hands (Cost.exprs · ≤ Tree.Expr.volumeAll es) (exprs ctx inLoop es)
  | [] => hands_pure (Nat.le_refl _)
  | e :: es => by
    refine hands_bind (hands_expr inLoop e) fun b hb => hands_bind (hands_exprs inLoop es) fun bs hbs => hands_pure ?_
    rw [Cost.exprs_cons, Tree.Expr.volumeAll]
    omega

theorem hands_branch (inLoop : Bool) : (b : Tree.Branch) → Hands (Cost.expr · ≤ b.volume) (branch ctx inLoop b)
  | .mk condition body other _ => by
    refine hands_bind (hands_expr inLoop condition) fun c hc => ?_
    refine hands_bind (hands_inScope (hands_block inLoop body)) fun b hb => ?_
    refine hands_bind (hands_otherwise inLoop other) fun o ho => hands_pure ?_
    simp only [Cost.expr, Cost.block, Size.expr, Fill.expr, Tree.Branch.volume] at hc hb ho ⊢
    omega

theorem hands_otherwise (inLoop : Bool) : (o : Tree.Otherwise) → Hands (Cost.block · ≤ o.volume) (otherwise ctx inLoop o)
  | .nothing => hands_pure (Nat.le_refl _)
  | .block b => hands_inScope (hands_block inLoop b)
  | .branch b => by
    refine hands_bind (hands_branch inLoop b) fun e he => hands_pure ?_
    simp only [Cost.expr, Cost.block, Size.block, Size.stmts, Size.tail, Fill.block, Fill.stmts, Fill.tail,
      Tree.Otherwise.volume] at he ⊢
    omega

theorem hands_block (inLoop : Bool) : (b : Tree.Block) → Hands (Cost.block · ≤ b.volume) (block ctx inLoop b)
  | .mk body last _ => by
    refine hands_bind (hands_stmts inLoop false false body) fun r hr => ?_
    refine hands_bind (hands_tail inLoop _ last) fun t ht => hands_pure ?_
    rw [Cost.block_mk, Tree.Block.volume]
    omega

theorem hands_stmts (inLoop diverged warned : Bool) : (ss : List Tree.Stmt) →
    Hands (fun r => Cost.stmts r.1 ≤ Tree.Stmt.volumeAll ss) (stmts ctx inLoop diverged warned ss)
  | [] => hands_pure (Nat.le_refl _)
  | s :: ss => by
    refine hands_after fun warned => hands_bind (hands_stmt inLoop s) fun first hfirst => ?_
    refine hands_bind (hands_stmts inLoop _ warned ss) fun rest hrest => hands_pure ?_
    rw [Tree.Stmt.volumeAll]
    exact cost_stmts_append hfirst hrest

theorem hands_stmt (inLoop : Bool) : (st : Tree.Stmt) →
    Hands (fun b => ∀ b' ∈ b, Cost.stmt b' ≤ st.volume) (stmt ctx inLoop st)
  | .bind _ _ value _ => hands_bind (hands_optional inLoop value) fun _ hv => hands_bindVariable hv
  | .assign _ value _ => hands_bind (hands_expr inLoop value) fun _ hv => hands_bindAssign hv
  | .setIndex base position value _ => by
    refine hands_bind (hands_expr inLoop base) fun b hb => hands_bind (hands_expr inLoop position) fun p hp => ?_
    refine hands_bind (hands_expr inLoop value) fun v hv => hands_pure fun st hst => ?_
    rw [← Option.some.inj hst]
    simp only [Cost.expr, Cost.stmt, Size.stmt, Fill.stmt, Tree.Stmt.volume] at hb hp hv ⊢
    omega
  | .func _ _ _ _ =>
    hands_after fun _ => hands_ite (hands_after fun _ => hands_pure none_costs) (hands_pure none_costs)
  | .eval e => by
    refine hands_bind (hands_expr inLoop e) fun b hb => hands_pure fun st hst => ?_
    rw [← Option.some.inj hst]
    simp only [Cost.expr, Cost.stmt, Size.stmt, Fill.stmt, Tree.Stmt.volume] at hb ⊢
    omega
  | .ret value _ => by
    refine hands_bind (hands_optional inLoop value) fun v hv => hands_pure fun st hst => ?_
    rw [← Option.some.inj hst]
    simp only [Cost.expr, Cost.stmt, Size.stmt, Fill.stmt, Tree.Stmt.volume] at hv ⊢
    omega
  | .loop condition body _ => by
    refine hands_bind (hands_expr inLoop condition) fun c hc => ?_
    refine hands_bind (hands_inScope (hands_block true body)) fun b hb => hands_pure fun st hst => ?_
    rw [← Option.some.inj hst]
    simp only [Cost.expr, Cost.block, Cost.stmt, Size.stmt, Fill.stmt, Tree.Stmt.volume] at hc hb ⊢
    omega
  | .leave _ | .next _ => by
    have jumped {st : Bound.Stmt} (h : Cost.stmt st = 2) : ∀ st' ∈ some st, Cost.stmt st' ≤ 2 := fun st' hst =>
      Option.some.inj hst ▸ Nat.le_of_eq h
    exact hands_ite (hands_after fun _ => hands_pure (jumped rfl)) (hands_pure (jumped rfl))

theorem hands_optional (inLoop : Bool) : (e : Option Tree.Expr) →
    Hands (fun v => Cost.expr (v.getD .unit) ≤ Tree.Expr.volumeIfAny e) (optional ctx inLoop e)
  | none => hands_pure (Nat.le_refl _)
  | some e => hands_bind (hands_expr inLoop e) fun _ hb => hands_pure hb

theorem hands_tail (inLoop unreachable : Bool) : (e : Option Tree.Expr) →
    Hands (Cost.tail · ≤ Tree.Expr.volumeIfAny e + 1) (tail ctx inLoop unreachable e)
  | none => hands_pure (by decide)
  | some e => by
    have value : Hands (Cost.tail · ≤ Tree.Expr.volumeIfAny (some e) + 1)
        (expr ctx inLoop e >>= fun b => pure (Bound.Tail.value b (lineOf ctx e.span))) := by
      refine hands_bind (hands_expr inLoop e) fun b hb => hands_pure ?_
      simp only [Cost.expr, Cost.tail, Size.tail, Fill.tail, Tree.Expr.volumeIfAny] at hb ⊢
      omega
    exact hands_ite (hands_after fun _ => value) value

end

/-! ### Units -/

theorem hands_function (d : Declaration) :
    Hands (fun g => g.name = ctx.unit.qualified d.name.name ∧ Cost.block g.body ≤ d.body.volume) (function ctx d) :=
  hands_after fun _ => hands_after fun _ => hands_bind (hands_block false d.body) fun _ hb =>
    hands_after fun _ => hands_after fun _ => hands_pure ⟨rfl, hb⟩

theorem hands_functions (ds : List Declaration) : Hands (fun gs => gs.length = ds.length ∧ ∀ g ∈ gs, ∃ d ∈ ds,
    g.name = ctx.unit.qualified d.name.name ∧ Cost.block g.body ≤ d.body.volume) (functions ctx ds) := by
  induction ds with
  | nil => exact hands_pure ⟨rfl, List.forall_mem_nil _⟩
  | cons d ds ih =>
    refine hands_bind (hands_function d) fun g hg => hands_bind ih fun gs hgs => hands_pure ⟨?_, ?_⟩
    · rw [List.length_cons, List.length_cons, hgs.1]
    · refine List.forall_mem_cons.mpr ⟨⟨d, .head _, hg⟩, fun g' hg' => ?_⟩
      obtain ⟨d', hd', bound⟩ := hgs.2 g' hg'
      exact ⟨d', .tail _ hd', bound⟩

theorem hands_entry (f : Tree.Fragment) (name : String) :
    Hands (fun g => g.name = name ∧ Cost.block g.body ≤ f.volume) (entry ctx f name) :=
  hands_after fun _ => hands_bind (hands_block false (.mk f.stmts f.tail f.span)) fun _ hb =>
    hands_after fun _ => hands_pure ⟨rfl, hb⟩

theorem volume_le_volumeAll {st : Tree.Stmt} {ss : List Tree.Stmt} (h : st ∈ ss) :
    st.volume ≤ Tree.Stmt.volumeAll ss := by
  induction ss with
  | nil => cases h
  | cons first rest ih =>
    rw [Tree.Stmt.volumeAll]
    rcases List.mem_cons.mp h with rfl | h
    · exact Nat.le_add_right ..
    · exact Nat.le_add_left_of_le (ih h)

/-- The functions of a unit cost no more than the fragment they are bound from, and their names are those of its functions,
    or that of the entry routine. -/
structure Bounded (ctx : Context) (f : Tree.Fragment) (p : Bound.Program) : Prop where
  cost : ∀ g ∈ p.functions, Cost.block g.body ≤ f.volume
  named : ∀ g ∈ p.functions, g.name = ctx.unit.qualified "<Main>" ∨ ∃ name params body span,
    .func name params body span ∈ f.stmts ∧ g.name = ctx.unit.qualified name.name
  slots : p.functionSlots.length ≤ p.functions.length

theorem bind_bounded (ctx : Context) (f : Tree.Fragment) : Bounded ctx f (bind ctx f).program := by
  let declared := (declarations ctx f).1
  have hoisted := declarations_hoisted ctx f
  have small {d : Declaration} (hd : d ∈ declared) : d.body.volume ≤ f.volume := by
    have hle := volume_le_volumeAll (hoisted.named d hd)
    rw [Tree.Stmt.volume] at hle
    rw [Tree.Fragment.volume, Tree.Block.volume]
    omega
  have made : Hands (fun gs => declared.length ≤ gs.length ∧ ∀ g ∈ gs, Cost.block g.body ≤ f.volume ∧
      (g.name = ctx.unit.qualified "<Main>" ∨ ∃ d ∈ declared, g.name = ctx.unit.qualified d.name.name))
      (unitFunctions ctx f declared) := by
    have bodies {gs : List Bound.Func} (h : ∀ g ∈ gs, ∃ d ∈ declared, g.name = ctx.unit.qualified d.name.name ∧
        Cost.block g.body ≤ d.body.volume) : ∀ g ∈ gs, Cost.block g.body ≤ f.volume ∧
          (g.name = ctx.unit.qualified "<Main>" ∨ ∃ d ∈ declared, g.name = ctx.unit.qualified d.name.name) := by
      intro g hg
      obtain ⟨d, hd, hname, hbody⟩ := h g hg
      exact ⟨Nat.le_trans hbody (small hd), .inr ⟨d, hd, hname⟩⟩
    unfold unitFunctions
    split
    · rename_i name hname
      have hmain : name = ctx.unit.qualified "<Main>" := by
        unfold UnitKind.entryName? at hname
        split at hname
        · exact (Option.some.inj hname).symm
        · cases hname
      refine hands_bind (hands_entry f name) fun main main' => hands_bind (hands_functions declared) fun gs hgs => ?_
      refine hands_pure ⟨?_, List.forall_mem_append.mpr ⟨bodies hgs.2, List.forall_mem_singleton.mpr ?_⟩⟩
      · rw [List.length_append, hgs.1]
        exact Nat.le_add_right ..
      · exact ⟨main'.2, .inl (main'.1.trans hmain)⟩
    · refine hands_after fun _ s => ?_
      obtain ⟨length, bound⟩ := (hands_functions declared : Hands _ (functions ctx declared)) s
      exact ⟨Nat.le_of_eq length.symm, bodies bound⟩
  obtain ⟨length, functions⟩ := made (declarations ctx f).2
  refine ⟨fun g hg => (functions g hg).1, fun g hg => (functions g hg).2.imp id ?_, ?_⟩
  · rintro ⟨d, hd, hname⟩
    exact ⟨d.name, d.params, d.body, d.span, hoisted.named d hd, hname⟩
  · refine Nat.le_trans ?_ length
    show (functionSlots ctx.unit declared).length ≤ declared.length
    unfold functionSlots
    split
    · exact Nat.le_of_eq (by rw [List.length_map, List.length_range])
    · exact Nat.zero_le _

end
end Binder
end ScriptEngine
