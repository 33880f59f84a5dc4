import Mathlib.Data.List.Forall2
import ScriptEngine.Proofs.BindingRules
import ScriptEngine.Proofs.Operations

/-! Without errors the operations of a bound block are those of the block that it was bound from, in the same order. Each has
    the operator of its own one, and what binding gave for the operands (`Binder.yields_blockOperations`). -/

namespace ScriptEngine
namespace Binder
open Lowering

/-- What binding gave for an operation of the source. -/
def BoundOperation (ctx : Context) (o : Tree.Operation) (b : OperationAt) : Prop := ∃ inLoop s s',
  b.expr = binary o.op ((expr ctx inLoop o.left).run s).1 ((expr ctx inLoop o.right).run s').1

/-- The operations of a bound tree are those of the source, in the same order. -/
def Performs (ctx : Context) (os : List Tree.Operation) (bs : List OperationAt) : Prop :=
  List.Forall₂ (BoundOperation ctx) os bs

/-- A declaration at the top level is one of a record. -/
def Rooted (ctx : Context) (s : State) : Prop := s.frame.atTopLevel = true → ctx.unit.record?.isSome = true

section
variable {ctx : Context} {s : State}

theorem Performs.append {os ps : List Tree.Operation} {xs ys : List OperationAt} (h : Performs ctx os xs)
    (h' : Performs ctx ps ys) : Performs ctx (os ++ ps) (xs ++ ys) := List.rel_append h h'

theorem Rooted.keeps {s' : State} (h : Rooted ctx s) (keeps : s.Keeps s') : Rooted ctx s' := fun htop =>
  h (keeps.atTopLevel ▸ htop)

theorem rooted_inner (inner : s.frame.atTopLevel = false) : Rooted ctx s := fun htop =>
  Bool.noConfusion (inner.symm.trans htop)

section
variable {α : Type} {x : Bind α} {P : State → α → Prop}

/-- What is known in all later states without an error is known with a result. -/
theorem Yields.beside {C : State → Prop} (hx : Yields s x P) (known : ∀ last, s.Before last → ¬ last.Blamed → C last) :
    Yields s x fun last a => P last a ∧ C last :=
  ⟨hx.1, fun last hlast clean => ⟨hx.2 last hlast clean, known last (hx.1.toBefore.trans hlast) clean⟩⟩

theorem Yields.result (hx : Yields s x P) : Yields s x fun last a => P last a ∧ a = (x.run s).1 :=
  ⟨hx.1, fun last hlast clean => ⟨hx.2 last hlast clean, rfl⟩⟩

end

/-! ### Statements that store -/

/-- A declaration stores its value. At the top level it stores nothing if it has none. -/
theorem yields_bindVariable_stores {name : Ident} {mutable : Bool} {value : Option Bound.Expr} {line : Nat}
    (rooted : Rooted ctx s) : Yields s (bindVariable ctx name mutable value line) fun _ st =>
      (∃ place, st = some (.store place (value.getD .unit) line)) ∨ value = none ∧ st = none := by
  refine yields_get ?_
  cases htop : s.frame.atTopLevel with
  | false =>
    rw [if_neg Bool.false_ne_true]
    exact yields_bind yields_declareLocal fun index s' _ _ => yields_pure fun _ _ _ => .inl ⟨_, rfl⟩
  | true =>
    rw [if_pos rfl]
    refine yields_get ?_
    dsimp only
    split
    · exact yields_blamed rfl fun _ => yields_pure fun _ _ _ => trivial
    · obtain ⟨record, hrecord⟩ := Option.isSome_iff_exists.mp (rooted htop)
      simp only [hrecord]
      refine yields_bind yields_declareSymbol fun slot s' _ _ => ?_
      cases value with
      | none => exact yields_pure fun _ _ _ => .inr ⟨rfl, rfl⟩
      | some value => exact yields_pure fun _ _ _ => .inl ⟨_, rfl⟩

theorem yields_assignPlace_some {target : Ident} (rooted : Rooted ctx s) : (res : Resolution) →
    Yields s (assignPlace ctx target res) fun _ place => place.isSome = true
  | .variable _ | .slot _ _ (.variable _) =>
    yields_ite (yields_reported fun _ _ => yields_pure fun _ _ _ => rfl) (yields_pure fun _ _ _ => rfl)
  | .slot _ _ (.function ..) | .function .. | .imported .. | .intrinsic _ | .ambiguous _ =>
    yields_blamed rfl fun _ => yields_pure fun _ _ _ => trivial
  | .unknown => by
    refine yields_get ?_
    split
    · exact yields_bind yields_declareSymbol fun _ _ _ _ => yields_reported fun _ _ => yields_pure fun _ _ _ => rfl
    · rename_i htop hnone
      have hrecord := rooted htop
      rw [hnone] at hrecord
      cases hrecord
    · exact yields_blamed rfl fun _ => yields_pure fun _ _ _ => trivial

/-- An assignment stores its value. -/
theorem yields_bindAssign_stores {target : Ident} {value : Bound.Expr} {line : Nat} (rooted : Rooted ctx s) :
    Yields s (bindAssign ctx target value line) fun _ st => ∃ place, st = some (.store place value line) := by
  refine yields_get (yields_bind (yields_assignPlace_some rooted _) fun place s' keeps hplace => ?_)
  refine yields_pure fun last hlast clean => ?_
  obtain ⟨p, rfl⟩ := Option.isSome_iff_exists.mp (hplace last hlast clean)
  exact ⟨p, rfl⟩

/-! ### Operations -/

/-- Names hold no operations. -/
theorem yields_nameValue_operations (ident : Ident) (res : Resolution) :
    Yields s (nameValue ctx ident res) fun _ b => ∀ pc, Operations.expr pc b = [] :=
  ⟨(yields_nameValue ident res).1, fun _ _ _ pc => by cases res <;> rfl⟩

theorem yields_pathValue_operations (member : Ident) (res : Resolution) :
    Yields s (pathValue ctx member res) fun _ b => ∀ pc, Operations.expr pc b = [] :=
  ⟨(yields_pathValue res).1, fun _ _ _ pc => by cases res <;> rfl⟩

theorem operations_binary (op : BinaryOp) (l r : Bound.Expr) : ∃ n, ∀ pc, Operations.expr pc (binary op l r) =
    ⟨binary op l r, pc⟩ :: (Operations.expr pc l ++ Operations.expr (pc + Size.expr l + n) r) := by
  cases op with
  | and => exact ⟨1, fun _ => rfl⟩
  | or => exact ⟨3, fun _ => rfl⟩
  | _ => exact ⟨0, fun _ => rfl⟩

end

section
variable {ctx : Context}

mutual

/-- Without errors the operations of a bound expression come from those of the source. -/
theorem yields_exprOperations (s : State) (inLoop : Bool) : (e : Tree.Expr) → Yields s (expr ctx inLoop e) fun _ b =>
    ∀ pc, Performs ctx (Tree.Operations.expr e) (Operations.expr pc b)
  | .name ident => yields_bind yields_resolveRead fun res _ _ _ =>
      (yields_nameValue_operations ident res).imp fun _ _ h pc => h pc ▸ .nil
  | .path _ member _ => yields_bind yields_resolvePath fun res _ _ _ =>
      (yields_pathValue_operations member res).imp fun _ _ h pc => h pc ▸ .nil
  | .literal value _ => yields_pure fun _ _ _ pc => by cases value <;> exact .nil
  | .binary op left right _ =>
    yields_bind yields_checkDivisor fun _ s₁ _ _ => yields_bind (yields_exprOperations s₁ inLoop left).result fun l s₂ _ hl =>
      yields_bind (yields_exprOperations s₂ inLoop right).result fun r s₃ keeps hr => yields_pure fun last hlast clean pc => by
        obtain ⟨n, hn⟩ := operations_binary op l r
        obtain ⟨hl, rfl⟩ := hl last (keeps.toBefore.trans hlast) clean
        obtain ⟨hr, rfl⟩ := hr last hlast clean
        exact hn pc ▸ .cons ⟨inLoop, s₁, s₂, rfl⟩ ((hl pc).append (hr _))
  | .unary _ operand _ => yields_bind (yields_exprOperations s inLoop operand) fun _ _ _ h => yields_pure h
  | .call callee args _ => by
    unfold expr
    split
    · rename_i ident
      refine yields_bind yields_resolveRead fun res s₁ _ _ => yields_bind yields_checkArity fun _ s₂ _ _ => ?_
      refine yields_bind (yields_exprsOperations s₂ inLoop args) fun bound s₃ h₃ hargs => ?_
      split
      · exact yields_pure hargs
      · refine yields_bind (yields_nameValue_operations ident res) fun c s₄ h₄ hc => yields_pure fun last hlast clean pc => ?_
        rw [Operations.expr, hc last hlast clean]
        exact hargs last (h₄.toBefore.trans hlast) clean _
    · rename_i library member span
      refine yields_bind yields_resolvePath fun res s₁ _ _ => yields_bind yields_checkArity fun _ s₂ _ _ => ?_
      refine yields_bind (yields_exprsOperations s₂ inLoop args) fun bound s₃ h₃ hargs => ?_
      split
      · exact yields_pure hargs
      · refine yields_bind (yields_pathValue_operations member res) fun c s₄ h₄ hc => yields_pure fun last hlast clean pc => ?_
        rw [Operations.expr, hc last hlast clean]
        exact hargs last (h₄.toBefore.trans hlast) clean _
    · exact yields_bind (yields_exprsOperations s inLoop args) fun _ s₁ _ hargs =>
        yields_bind (yields_exprOperations s₁ inLoop callee) fun _ s₂ keeps hcallee => yields_pure fun last hlast clean pc =>
          (hcallee last hlast clean pc).append (hargs last (keeps.toBefore.trans hlast) clean _)
  | .index base position _ =>
    yields_bind (yields_exprOperations s inLoop base) fun _ s₁ _ hb => yields_bind (yields_exprOperations s₁ inLoop position)
      fun _ s₂ keeps hp => yields_pure fun last hlast clean pc =>
        (hb last (keeps.toBefore.trans hlast) clean pc).append (hp last hlast clean _)
  | .list items _ => yields_bind (yields_exprsOperations s inLoop items) fun _ _ _ h => yields_pure h
  | .branch b => yields_branchOperations s inLoop b
  | .block b => yields_bind (yields_inScope fun s' inner => yields_block s' inner inLoop b) fun _ _ _ _ =>
      yields_pure fun _ _ _ _ => .nil

theorem yields_exprsOperations (s : State) (inLoop : Bool) : (es : List Tree.Expr) → Yields s (exprs ctx inLoop es)
    fun _ bs => ∀ pc, Performs ctx (Tree.Operations.exprs es) (Operations.exprs pc bs)
  | [] => yields_pure fun _ _ _ _ => .nil
  | e :: es => yields_bind (yields_exprOperations s inLoop e) fun _ s₁ _ he => yields_bind (yields_exprsOperations s₁ inLoop es)
      fun _ _ keeps hes => yields_pure fun last hlast clean pc =>
        (he last (keeps.toBefore.trans hlast) clean pc).append (hes last hlast clean _)

theorem yields_branchOperations (s : State) (inLoop : Bool) : (b : Tree.Branch) → Yields s (branch ctx inLoop b) fun _ b' =>
    ∀ pc, Performs ctx (Tree.Operations.branch b) (Operations.expr pc b')
  | .mk condition body other _ =>
    yields_bind (yields_exprOperations s inLoop condition) fun _ _ _ hc =>
      yields_bind (yields_inScope fun s' inner => yields_block s' inner inLoop body) fun _ s₂ h₂ _ =>
        yields_bind (yields_otherwise s₂ inLoop other) fun _ _ h₃ _ => yields_pure fun last hlast clean pc =>
          hc last ((h₂.trans h₃).toBefore.trans hlast) clean pc

end

theorem yields_optionalOperations (s : State) (inLoop : Bool) (e : Option Tree.Expr) :
    Yields s (optional ctx inLoop e) fun _ v => ∀ pc, Performs ctx (Tree.Operations.optional e) (Operations.exprs pc v.toList) := by
  cases e with
  | none => exact yields_pure fun _ _ _ _ => .nil
  | some e =>
    refine yields_bind (yields_exprOperations s inLoop e) fun _ _ _ h => yields_pure fun last hlast clean pc => ?_
    rw [Option.toList_some, Operations.exprs_one]
    exact h last hlast clean pc

theorem yields_tailOperations (s : State) (inLoop unreachable : Bool) (e : Option Tree.Expr) :
    Yields s (tail ctx inLoop unreachable e) fun _ t => ∀ pc, Performs ctx (Tree.Operations.optional e) (Operations.tail pc t) := by
  cases e with
  | none => exact yields_pure fun _ _ _ _ => .nil
  | some e =>
    have value (s' : State) : Yields s' (expr ctx inLoop e >>= fun b => pure (Bound.Tail.value b (lineOf ctx e.span)))
        fun _ t => ∀ pc, Performs ctx (Tree.Operations.optional (some e)) (Operations.tail pc t) :=
      yields_bind (yields_exprOperations s' inLoop e) fun _ _ _ h => yields_pure h
    exact yields_ite (yields_reported fun s' _ => value s') (value s)

theorem yields_stmtOperations (s : State) (rooted : Rooted ctx s) (inLoop : Bool) (st : Tree.Stmt) :
    Yields s (stmt ctx inLoop st) fun _ b => ∀ pc, Performs ctx (Tree.Operations.stmt st) (Operations.stmts pc b.toList) := by
  cases st with
  | bind name mutable value span =>
    refine yields_bind (yields_optionalOperations s inLoop value) fun _ _ keeps hv =>
      ((yields_bindVariable_stores (rooted.keeps keeps)).beside hv).imp fun _ st both pc => ?_
    obtain ⟨⟨place, rfl⟩ | ⟨rfl, rfl⟩, hv⟩ := both
    · rw [Option.toList_some, Operations.stmts_one, Operations.stmt, Operations.expr_getD]
      exact hv pc
    · exact hv pc
  | assign target value span =>
    refine yields_bind (yields_exprOperations s inLoop value) fun _ _ keeps hv =>
      ((yields_bindAssign_stores (rooted.keeps keeps)).beside hv).imp fun _ st both pc => ?_
    obtain ⟨⟨place, rfl⟩, hv⟩ := both
    rw [Option.toList_some, Operations.stmts_one]
    exact hv pc
  | setIndex base position value span =>
    refine yields_bind (yields_exprOperations s inLoop base) fun _ s₁ _ hb =>
      yields_bind (yields_exprOperations s₁ inLoop position) fun _ s₂ h₂ hp =>
        yields_bind (yields_exprOperations s₂ inLoop value) fun _ s₃ h₃ hv => yields_pure fun last hlast clean pc => ?_
    rw [Option.toList_some, Operations.stmts_one]
    exact ((hb last ((h₂.trans h₃).toBefore.trans hlast) clean pc).append
      (hp last (h₃.toBefore.trans hlast) clean _)).append (hv last hlast clean _)
  | func name params body span =>
    exact yields_get (yields_ite (yields_reported fun _ _ => yields_pure fun _ _ _ _ => .nil)
      (yields_pure fun _ _ _ _ => .nil))
  | eval e =>
    refine yields_bind (yields_exprOperations s inLoop e) fun _ _ _ h => yields_pure fun last hlast clean pc => ?_
    rw [Option.toList_some, Operations.stmts_one]
    exact h last hlast clean pc
  | ret value span =>
    refine yields_bind (yields_optionalOperations s inLoop value) fun _ _ _ h => yields_pure fun last hlast clean pc => ?_
    rw [Option.toList_some, Operations.stmts_one, Operations.stmt, Operations.expr_getD]
    exact h last hlast clean pc
  | loop condition body span =>
    refine yields_bind (yields_exprOperations s inLoop condition) fun _ s₁ _ hc =>
      yields_bind (yields_inScope fun s' inner => yields_block s' inner true body) fun _ s₂ keeps _ =>
        yields_pure fun last hlast clean pc => ?_
    rw [Option.toList_some, Operations.stmts_one]
    exact hc last (keeps.toBefore.trans hlast) clean pc
  | leave span | next span =>
    exact yields_ite (yields_reported fun _ _ => yields_pure fun _ _ _ _ => .nil) (yields_pure fun _ _ _ _ => .nil)

theorem yields_stmtsOperations (s : State) (rooted : Rooted ctx s) (inLoop diverged warned : Bool) (ss : List Tree.Stmt) :
    Yields s (stmts ctx inLoop diverged warned ss) fun _ result =>
      ∀ pc, Performs ctx (ss.flatMap Tree.Operations.stmt) (Operations.stmts pc result.1) := by
  induction ss generalizing s diverged warned with
  | nil => exact yields_pure fun _ _ _ _ => .nil
  | cons st ss ih =>
    refine yields_bind yields_checkReachable fun _ s₁ h₁ _ => yields_bind (yields_stmtOperations s₁ (rooted.keeps h₁) inLoop st)
      fun _ s₂ h₂ hfirst => yields_bind (ih s₂ (rooted.keeps (h₁.trans h₂)) _ _)
        fun _ _ h₃ hrest => yields_pure fun last hlast clean pc => ?_
    rw [Operations.stmts_append, List.flatMap_cons]
    exact (hfirst last (h₃.toBefore.trans hlast) clean pc).append (hrest last hlast clean _)

/-- Without errors the operations of a bound block come from those of the source. -/
theorem yields_blockOperations (s : State) (rooted : Rooted ctx s) (inLoop : Bool) (b : Tree.Block) :
    Yields s (block ctx inLoop b) fun _ b' => ∀ pc, Performs ctx b.operations (Operations.block pc b') := by
  cases b with
  | mk body last span =>
    exact yields_bind (yields_stmtsOperations s rooted inLoop false false body) fun _ s₁ _ hbody =>
      yields_bind (yields_tailOperations s₁ inLoop _ last) fun _ _ keeps hlast => yields_pure fun final hfinal clean pc =>
        (hbody final (keeps.toBefore.trans hfinal) clean pc).append (hlast final hfinal clean _)

end
end Binder
end ScriptEngine
