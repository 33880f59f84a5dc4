import ScriptEngine.Proofs.BindingRules
import ScriptEngine.Proofs.LoopControl

/-! Which operands are callees that binding knows. `Outlooks` gives every instruction of a bound tree the operands
    that it finds, in the order in which instructions are emitted; `Foresees` says that an instruction leaves to
    the next one what that one is to find. It holds in tidy code only: what a jump out of a loop leaves behind would
    be found instead. -/

namespace ScriptEngine

/-- A value that binding knows: a function, an import, or a slot that holds a function for good. -/
def Bound.Expr.isKnown (fixed : Nat → Nat → Bool) : Bound.Expr → Bool
  | .function _ | .imported _ => true
  | .load (.slot record slot) => fixed record slot
  | _ => false

namespace Bound

/-- What is called. -/
inductive Callee where
  | value (e : Expr)
  | intrinsic (i : Intrinsic)

def Callee.isKnown (fixed : Nat → Nat → Bool) : Callee → Bool
  | value e => e.isKnown fixed
  | intrinsic _ => true

end Bound

def Instr.isCall : Instr → Bool
  | .call _ | .intrinsic .. => true
  | _ => false

namespace Lowering
open ScriptEngine.Bound

/-- What is known of an instruction beforehand. -/
structure Outlook where
  /-- The operands on the stack, the topmost first: with how many arguments an operand is going to be called, if it is
      a known callee. -/
  operands : List (Option Nat)
  /-- The callee and the number of arguments, if the instruction is that of a call. -/
  call : Option (Callee × Nat)

namespace Outlooks
variable (fixed : Nat → Nat → Bool)

/-- How a callee is known while its arguments are evaluated. -/
def callee (c : Expr) (given : Nat) : Option Nat := if c.isKnown fixed then some given else none

mutual

/-- The outlooks of an expression that is evaluated on top of some operands. -/
def expr (ms : List (Option Nat)) : Expr → List Outlook
  | .unit | .int _ | .float _ | .bool _ | .text _ | .load _ | .function _ | .imported _ => [⟨ms, none⟩]
  | .both left right =>
    expr ms left ++ ⟨none :: ms, none⟩ ::
      (expr ms right ++ [⟨none :: ms, none⟩, ⟨ms, none⟩, ⟨none :: ms, none⟩, ⟨ms, none⟩])
  | .either left right =>
    expr ms left ++ ⟨none :: ms, none⟩ :: ⟨ms, none⟩ :: ⟨none :: ms, none⟩ ::
      (expr ms right ++ [⟨none :: ms, none⟩, ⟨ms, none⟩, ⟨none :: ms, none⟩, ⟨ms, none⟩])
  | .operate _ left right => expr ms left ++ (expr (none :: ms) right ++ [⟨none :: none :: ms, none⟩])
  | .unary _ operand => expr ms operand ++ [⟨none :: ms, none⟩]
  | .call c args =>
    expr ms c ++ (exprs (callee fixed c args.length :: ms) args ++
      [⟨List.replicate args.length none ++ callee fixed c args.length :: ms, some (.value c, args.length)⟩])
  | .intrinsic i args =>
    exprs ms args ++ [⟨List.replicate args.length none ++ ms, some (.intrinsic i, args.length)⟩]
  | .index base position => expr ms base ++ (expr (none :: ms) position ++ [⟨none :: none :: ms, none⟩])
  | .list items => exprs ms items ++ [⟨List.replicate items.length none ++ ms, none⟩]
  | .branch condition body otherwise =>
    expr ms condition ++ ⟨none :: ms, none⟩ :: (block ms body ++ ⟨none :: ms, none⟩ :: block ms otherwise)
  | .block b => block ms b

def exprs (ms : List (Option Nat)) : List Expr → List Outlook
  | [] => []
  | e :: es => expr ms e ++ exprs (none :: ms) es

def stmt (ms : List (Option Nat)) : Stmt → List Outlook
  | .store _ value _ => expr ms value ++ [⟨none :: ms, none⟩]
  | .setIndex base position value _ =>
    expr ms base ++ (expr (none :: ms) position ++ (expr (none :: none :: ms) value ++
      [⟨none :: none :: none :: ms, none⟩]))
  | .eval e _ => expr ms e ++ [⟨none :: ms, none⟩]
  | .ret value _ => expr ms value ++ [⟨none :: ms, none⟩]
  | .loop condition body _ =>
    expr ms condition ++ ⟨none :: ms, none⟩ :: (block ms body ++ [⟨none :: ms, none⟩, ⟨ms, none⟩])
  | .leave _ | .next _ => [⟨ms, none⟩]

def stmts (ms : List (Option Nat)) : List Stmt → List Outlook
  | [] => []
  | s :: ss => stmt ms s ++ stmts ms ss

def tail (ms : List (Option Nat)) : Tail → List Outlook
  | .nothing => [⟨ms, none⟩]
  | .value e _ => expr ms e

def block (ms : List (Option Nat)) : Block → List Outlook
  | .mk body last => stmts ms body ++ tail ms last

end

mutual

/-- There is one outlook for each instruction. -/
theorem length_expr (ms : List (Option Nat)) : (e : Expr) → (expr fixed ms e).length = Size.expr e
  | .unit | .int _ | .float _ | .bool _ | .text _ | .load _ | .function _ | .imported _ => rfl
  | .both left right => by simp [expr, Size.expr, length_expr ms left, length_expr ms right]; omega
  | .either left right => by simp [expr, Size.expr, length_expr ms left, length_expr ms right]; omega
  | .operate _ left right => by
    simp [expr, Size.expr, length_expr ms left, length_expr (none :: ms) right, Nat.add_assoc]
  | .unary _ operand => by simp [expr, Size.expr, length_expr ms operand]
  | .call c args => by
    simp [expr, Size.expr, length_expr ms c, length_exprs (callee fixed c args.length :: ms) args, Nat.add_assoc]
  | .intrinsic _ args => by simp [expr, Size.expr, length_exprs ms args]
  | .index base position => by
    simp [expr, Size.expr, length_expr ms base, length_expr (none :: ms) position, Nat.add_assoc]
  | .list items => by simp [expr, Size.expr, length_exprs ms items]
  | .branch condition body otherwise => by
    simp [expr, Size.expr, length_expr ms condition, length_block ms body, length_block ms otherwise]
    omega
  | .block b => by rw [expr, Size.expr, length_block ms b]

theorem length_exprs (ms : List (Option Nat)) : (es : List Expr) → (exprs fixed ms es).length = Size.exprs es
  | [] => rfl
  | e :: es => by rw [exprs, Size.exprs, List.length_append, length_expr ms e, length_exprs (none :: ms) es]

theorem length_stmt (ms : List (Option Nat)) : (s : Stmt) → (stmt fixed ms s).length = Size.stmt s
  | .store _ value _ => by simp [stmt, Size.stmt, length_expr ms value]
  | .setIndex base position value _ => by
    simp [stmt, Size.stmt, length_expr ms base, length_expr (none :: ms) position,
      length_expr (none :: none :: ms) value, Nat.add_assoc]
  | .eval e _ => by simp [stmt, Size.stmt, length_expr ms e]
  | .ret value _ => by simp [stmt, Size.stmt, length_expr ms value]
  | .loop condition body _ => by
    simp [stmt, Size.stmt, length_expr ms condition, length_block ms body]
    omega
  | .leave _ | .next _ => rfl

theorem length_stmts (ms : List (Option Nat)) : (ss : List Stmt) → (stmts fixed ms ss).length = Size.stmts ss
  | [] => rfl
  | s :: ss => by rw [stmts, Size.stmts, List.length_append, length_stmt ms s, length_stmts ms ss]

theorem length_tail (ms : List (Option Nat)) : (t : Tail) → (tail fixed ms t).length = Size.tail t
  | .nothing => rfl
  | .value e _ => by rw [tail, Size.tail, length_expr ms e]

theorem length_block (ms : List (Option Nat)) : (b : Block) → (block fixed ms b).length = Size.block b
  | .mk body last => by rw [block, Size.block, List.length_append, length_stmts ms body, length_tail ms last]

end

end Outlooks

/-! ### Outlooks of a routine -/

/-- What an instruction at an address is going to find. -/
def Expects (outlooks : List Outlook) (pc : Nat) (ms : List (Option Nat)) : Prop := ∃ call, outlooks[pc]? = some ⟨ms, call⟩

/-- The outlooks of a part of a routine, which stands at `pc`. -/
def Stretch (outlooks : List Outlook) (pc : Nat) (part : List Outlook) : Prop := Along (fun a o => outlooks[a]? = some o) pc part

/-- What jumps out of the innermost loop arrive at expects the operands with which the loop began. -/
def LoopsExpect (outlooks : List Outlook) (loop : Option LoopTargets) (ms : List (Option Nat)) : Prop :=
  ∀ targets, loop = some targets → Expects outlooks targets.start ms ∧ Expects outlooks targets.exit ms

section
variable {fixed : Nat → Nat → Bool} {outlooks : List Outlook} {pc m : Nat} {ms : List (Option Nat)}

theorem Expects.cast (h : Expects outlooks pc ms) (hpc : pc = m) : Expects outlooks m ms := hpc ▸ h

theorem Stretch.head {o : Outlook} {part : List Outlook} (h : Stretch outlooks pc (o :: part)) :
    Expects outlooks pc o.operands := ⟨o.call, h.1⟩

mutual

/-- An expression begins with the operands on top of which it is evaluated. -/
theorem expr_expects {pc : Nat} {ms : List (Option Nat)} : (e : Expr) → Stretch outlooks pc (Outlooks.expr fixed ms e) →
    Expects outlooks pc ms
  | .unit, h | .int _, h | .float _, h | .bool _, h | .text _, h | .load _, h | .function _, h | .imported _, h =>
    h.head
  | .both left _, h | .either left _, h | .operate _ left _, h => expr_expects left (along_append.mp h).1
  | .unary _ operand, h => expr_expects operand (along_append.mp h).1
  | .call c _, h => expr_expects c (along_append.mp h).1
  | .intrinsic _ args, h | .list args, h => by
    obtain ⟨hargs, hlast, -⟩ := along_append.mp h
    rw [Outlooks.length_exprs] at hlast
    exact exprs_expects args hargs ⟨_, hlast⟩
  | .index base _, h => expr_expects base (along_append.mp h).1
  | .branch condition _ _, h => expr_expects condition (along_append.mp h).1
  | .block b, h => block_expects b h

theorem exprs_expects {pc : Nat} {ms : List (Option Nat)} : (es : List Expr) →
    Stretch outlooks pc (Outlooks.exprs fixed ms es) →
    Expects outlooks (pc + Size.exprs es) (List.replicate es.length none ++ ms) → Expects outlooks pc ms
  | [], _, exit => exit
  | e :: _, h, _ => expr_expects e (along_append.mp h).1

theorem stmt_expects {pc : Nat} {ms : List (Option Nat)} : (s : Stmt) → Stretch outlooks pc (Outlooks.stmt fixed ms s) →
    Expects outlooks pc ms
  | .store _ value _, h | .eval value _, h | .ret value _, h => expr_expects value (along_append.mp h).1
  | .setIndex base _ _ _, h => expr_expects base (along_append.mp h).1
  | .loop condition _ _, h => expr_expects condition (along_append.mp h).1
  | .leave _, h | .next _, h => h.head

theorem stmts_expects {pc : Nat} {ms : List (Option Nat)} : (ss : List Stmt) →
    Stretch outlooks pc (Outlooks.stmts fixed ms ss) → Expects outlooks (pc + Size.stmts ss) ms → Expects outlooks pc ms
  | [], _, exit => exit
  | s :: _, h, _ => stmt_expects s (along_append.mp h).1

theorem tail_expects {pc : Nat} {ms : List (Option Nat)} : (t : Tail) → Stretch outlooks pc (Outlooks.tail fixed ms t) →
    Expects outlooks pc ms
  | .nothing, h => h.head
  | .value e _, h => expr_expects e h

theorem block_expects {pc : Nat} {ms : List (Option Nat)} : (b : Block) → Stretch outlooks pc (Outlooks.block fixed ms b) →
    Expects outlooks pc ms
  | .mk body last, h => by
    obtain ⟨hbody, hlast⟩ := along_append.mp h
    rw [Outlooks.length_stmts] at hlast
    exact stmts_expects body hbody (tail_expects last hlast)

end
end

/-! ### Flow -/

/-- The instruction at an address loads a known callee, which takes so many arguments. -/
def Fetches (r : Routine) (rules : Rules) (fixed : Nat → Nat → Bool) (pc given : Nat) : Prop :=
  ∃ c, c.isKnown fixed = true ∧ rules.call c given ∧ Stands.expr r none pc c

/-- Wherever control goes from an instruction that finds the operands `ms`, what it leaves is what is expected
    there. -/
def Supplies (r : Routine) (rules : Rules) (fixed : Nat → Nat → Bool) (outlooks : List Outlook) (pc : Nat)
    (ms : List (Option Nat)) : Prop :=
  ∀ i, r.Holds pc i → ∀ next ∈ i.exits pc, Expects outlooks next (List.replicate i.pushes none ++ ms.drop i.pops) ∨
    ∃ given, Fetches r rules fixed pc given ∧ i.pops = 0 ∧ i.pushes = 1 ∧ Expects outlooks next (some given :: ms)

/-- An outlook is right: what is expected next is supplied, and the calls are those of the tree, with the callee
    below the arguments. -/
structure Foresees (r : Routine) (rules : Rules) (fixed : Nat → Nat → Bool) (outlooks : List Outlook) (pc : Nat)
    (o : Outlook) : Prop where
  supplies : Supplies r rules fixed outlooks pc o.operands
  value : ∀ {c : Expr} {given : Nat}, o.call = some (.value c, given) → rules.call c given ∧
    (∃ argc, r.Holds pc (.call argc) ∧ argc.toNat = given) ∧
    ∃ ms, o.operands = List.replicate given none ++ Outlooks.callee fixed c given :: ms
  intrinsic : ∀ {i : Intrinsic} {given : Nat}, o.call = some (.intrinsic i, given) → rules.intrinsic i given ∧
    ∃ argc, r.Holds pc (.intrinsic i.id argc) ∧ argc.toNat = given
  other : o.call = none → ∀ i, r.Holds pc i → i.isCall = false

section
variable {r : Routine} {rules : Rules} {fixed : Nat → Nat → Bool} {outlooks : List Outlook} {pc : Nat}
  {ms ms' : List (Option Nat)}

theorem supplies_of_holds {i : Instr} (hi : r.Holds pc i)
    (hexits : ∀ next ∈ i.exits pc, Expects outlooks next (List.replicate i.pushes none ++ ms.drop i.pops)) :
    Supplies r rules fixed outlooks pc ms := by
  intro j hj next hnext
  obtain rfl : i = j := Option.some.inj (hi.symm.trans hj)
  exact .inl (hexits next hnext)

theorem supplies_next {i : Instr} (hi : r.Holds pc i) (hexits : i.exits pc = [pc + 1]) (exit : Expects outlooks (pc + 1) ms')
    (hms : List.replicate i.pushes none ++ ms.drop i.pops = ms') : Supplies r rules fixed outlooks pc ms := by
  refine supplies_of_holds hi fun next hnext => ?_
  rw [hexits, List.mem_singleton] at hnext
  rw [hnext, hms]
  exact exit

/-- An instruction that is no call. -/
theorem Foresees.plain {i : Instr} (hi : r.Holds pc i) (hcall : i.isCall = false)
    (h : Supplies r rules fixed outlooks pc ms) : Foresees r rules fixed outlooks pc ⟨ms, none⟩ := by
  refine ⟨h, nofun, nofun, fun _ j hj => ?_⟩
  obtain rfl : i = j := Option.some.inj (hi.symm.trans hj)
  exact hcall

/-- An instruction after which control goes on behind it. -/
theorem Foresees.next {i : Instr} (hi : r.Holds pc i) (hexits : i.exits pc = [pc + 1]) (exit : Expects outlooks (pc + 1) ms')
    (hms : List.replicate i.pushes none ++ ms.drop i.pops = ms' := by rfl) (hcall : i.isCall = false := by rfl) :
    Foresees r rules fixed outlooks pc ⟨ms, none⟩ := .plain hi hcall (supplies_next hi hexits exit hms)

theorem Foresees.jump {target : Nat} (hi : r.JumpsAt pc target) (exit : Expects outlooks target ms) :
    Foresees r rules fixed outlooks pc ⟨ms, none⟩ := by
  obtain ⟨x, hx, rfl⟩ := hi
  refine .plain hx rfl (supplies_of_holds hx fun next hnext => ?_)
  rw [List.mem_singleton.mp hnext]
  exact exit

theorem Foresees.branch {target : Nat} (hi : r.BranchesAt pc target) (hnext : Expects outlooks (pc + 1) ms)
    (htarget : Expects outlooks target ms) : Foresees r rules fixed outlooks pc ⟨none :: ms, none⟩ := by
  obtain ⟨x, hx, rfl⟩ := hi
  refine .plain hx rfl (supplies_of_holds hx fun next hmem => ?_)
  rcases List.mem_cons.mp hmem with rfl | hmem
  · exact hnext
  · rw [List.mem_singleton.mp hmem]
    exact htarget

theorem Foresees.ret (hi : r.Holds pc .ret) : Foresees r rules fixed outlooks pc ⟨ms, none⟩ :=
  .plain hi rfl (supplies_of_holds hi fun _ hnext => absurd hnext List.not_mem_nil)

theorem drop_replicate_append (n : Nat) (ms : List (Option Nat)) : (List.replicate n none ++ ms).drop n = ms := by
  rw [List.drop_left' List.length_replicate]

theorem replicate_append_cons (n : Nat) (ms : List (Option Nat)) :
    List.replicate n none ++ none :: ms = List.replicate (n + 1) none ++ ms := by
  rw [List.replicate_succ', List.append_assoc, List.singleton_append]

/-- A known callee is left for the call. -/
theorem callee_foresees {loop : Option LoopTargets} {c : Expr} {given : Nat} (hknown : c.isKnown fixed = true)
    (stands : Stands.expr r loop pc c) (takes : rules.call c given)
    (exit : Expects outlooks (pc + Size.expr c) (some given :: ms)) :
    Along (Foresees r rules fixed outlooks) pc (Outlooks.expr fixed ms c) := by
  have foresees {i : Instr} (hi : r.Holds pc i) (hexits : i.exits pc = [pc + 1]) (hpops : i.pops = 0) (hpushes : i.pushes = 1)
      (hcall : i.isCall = false) (hstands : Stands.expr r none pc c) (exit : Expects outlooks (pc + 1) (some given :: ms)) :
      Foresees r rules fixed outlooks pc ⟨ms, none⟩ := by
    refine .plain hi hcall fun j hj next hnext => ?_
    obtain rfl : i = j := Option.some.inj (hi.symm.trans hj)
    rw [hexits, List.mem_singleton] at hnext
    exact .inr ⟨given, ⟨c, hknown, takes, hstands⟩, hpops, hpushes, hnext ▸ exit⟩
  cases c with
  | function index =>
    obtain ⟨i, hi, -⟩ := id stands
    exact ⟨foresees hi rfl rfl rfl rfl stands exit, trivial⟩
  | imported index =>
    obtain ⟨i, hi, -⟩ := id stands
    exact ⟨foresees hi rfl rfl rfl rfl stands exit, trivial⟩
  | load place =>
    cases place with
    | frame index => cases hknown
    | slot record slot =>
      obtain ⟨w, i, hi, -, -⟩ := id stands
      exact ⟨foresees hi rfl rfl rfl rfl stands exit, trivial⟩
  | _ => cases hknown

mutual

/-- What is expected throughout a tidy expression is what is there, if its value is expected behind it. -/
theorem expr_foresees {loop : Option LoopTargets} {pending : Bool} {msl ms : List (Option Nat)} {pc : Nat}
    (loops : LoopsExpect outlooks loop msl) (hms : pending = false → ms = msl) : (e : Expr) → Stands.expr r loop pc e →
    Obeys.expr rules e → Tidy.expr pending e = true → Stretch outlooks pc (Outlooks.expr fixed ms e) →
    Expects outlooks (pc + Size.expr e) (none :: ms) →
    Along (Foresees r rules fixed outlooks) pc (Outlooks.expr fixed ms e)
  | .unit, h, _, _, _, exit => ⟨.next h rfl exit, trivial⟩
  | .bool _, h, _, _, _, exit => ⟨.next h rfl exit, trivial⟩
  | .int _, ⟨_, h, _⟩, _, _, _, exit => ⟨.next h rfl exit, trivial⟩
  | .float _, ⟨_, h, _⟩, _, _, _, exit => ⟨.next h rfl exit, trivial⟩
  | .text _, ⟨_, h, _⟩, _, _, _, exit => ⟨.next h rfl exit, trivial⟩
  | .load (.frame _), ⟨_, h, _⟩, _, _, _, exit => ⟨.next h rfl exit, trivial⟩
  | .load (.slot _ _), ⟨_, _, h, _, _⟩, _, _, _, exit => ⟨.next h rfl exit, trivial⟩
  | .function _, ⟨_, h, _⟩, _, _, _, exit => ⟨.next h rfl exit, trivial⟩
  | .imported _, ⟨_, h, _⟩, _, _, _, exit => ⟨.next h rfl exit, trivial⟩
  | .both left right, h, ho, ht, s, exit => by
    obtain ⟨hl, hbl, hr, hbr, htrue, hjump, hfalse⟩ := h
    obtain ⟨tl, tr⟩ := Bool.and_eq_true_iff.mp ht
    simp only [Outlooks.expr, Stretch, along_append, along_cons, along_nil, Outlooks.length_expr, and_true] at s ⊢
    obtain ⟨sl, sbl, sr, sbr, strue, sjump, sfalse⟩ := s
    have exit := exit.cast (m := pc + Size.expr left + 1 + Size.expr right + 3 + 1) (by simp only [Size.expr]; omega)
    exact ⟨expr_foresees loops hms left hl ho.1 tl sl ⟨none, sbl⟩, .branch hbl (expr_expects right sr) ⟨none, sfalse⟩,
      expr_foresees loops hms right hr ho.2 tr sr ⟨none, sbr⟩, .branch hbr ⟨none, strue⟩ ⟨none, sfalse⟩,
      .next htrue rfl ⟨none, sjump⟩, .jump hjump exit, .next hfalse rfl exit⟩
  | .either left right, h, ho, ht, s, exit => by
    obtain ⟨hl, hbl, htrue₁, hjump₁, hr, hbr, htrue₂, hjump₂, hfalse⟩ := h
    obtain ⟨tl, tr⟩ := Bool.and_eq_true_iff.mp ht
    simp only [Outlooks.expr, Stretch, along_append, along_cons, along_nil, Outlooks.length_expr, and_true] at s ⊢
    obtain ⟨sl, sbl, strue₁, sjump₁, sr, sbr, strue₂, sjump₂, sfalse⟩ := s
    have exit := exit.cast (m := pc + Size.expr left + 3 + Size.expr right + 3 + 1) (by simp only [Size.expr]; omega)
    exact ⟨expr_foresees loops hms left hl ho.1 tl sl ⟨none, sbl⟩, .branch hbl ⟨none, strue₁⟩ (expr_expects right sr),
      .next htrue₁ rfl ⟨none, sjump₁⟩, .jump hjump₁ exit, expr_foresees loops hms right hr ho.2 tr sr ⟨none, sbr⟩,
      .branch hbr ⟨none, strue₂⟩ ⟨none, sfalse⟩, .next htrue₂ rfl ⟨none, sjump₂⟩, .jump hjump₂ exit,
      .next hfalse rfl exit⟩
  | .operate _ left right, h, ho, ht, s, exit => by
    obtain ⟨hl, hr, hop⟩ := h
    obtain ⟨tl, tr⟩ := Bool.and_eq_true_iff.mp ht
    simp only [Outlooks.expr, Stretch, along_append, along_cons, along_nil, Outlooks.length_expr, and_true] at s ⊢
    obtain ⟨sl, sr, sop⟩ := s
    have exit := exit.cast (m := pc + Size.expr left + Size.expr right + 1) (by simp only [Size.expr]; omega)
    exact ⟨expr_foresees loops hms left hl ho.1 tl sl (expr_expects right sr),
      expr_foresees loops (nofun : true = false → _) right hr ho.2 tr sr ⟨none, sop⟩, .next hop rfl exit⟩
  | .unary op operand, h, ho, ht, s, exit => by
    obtain ⟨he, hop⟩ := h
    simp only [Outlooks.expr, Stretch, along_append, along_cons, along_nil, Outlooks.length_expr, and_true] at s ⊢
    obtain ⟨se, sop⟩ := s
    have exit := exit.cast (m := pc + Size.expr operand + 1) (by simp only [Size.expr]; omega)
    refine ⟨expr_foresees loops hms operand he ho ht se ⟨none, sop⟩, ?_⟩
    cases op with
    | neg => exact .next (i := .neg) hop rfl exit
    | not => exact .next (i := .not) hop rfl exit
  | .call c args, h, ho, ht, s, exit => by
    obtain ⟨hc, ha, argc, hcall, hargc⟩ := h
    obtain ⟨tc, ta⟩ := Bool.and_eq_true_iff.mp ht
    simp only [Outlooks.expr, Stretch, along_append, along_cons, along_nil, Outlooks.length_expr, Outlooks.length_exprs,
      and_true] at s ⊢
    obtain ⟨sc, sa, scall⟩ := s
    have exit := exit.cast (m := pc + Size.expr c + Size.exprs args + 1) (by simp only [Size.expr]; omega)
    have arguments := exprs_expects args sa ⟨_, scall⟩
    refine ⟨?_, exprs_foresees loops (nofun : true = false → _) args ha ho.2.2 ta sa ⟨_, scall⟩, ?_⟩
    · by_cases hknown : c.isKnown fixed = true
      · rw [Outlooks.callee, if_pos hknown] at arguments
        exact callee_foresees hknown hc ho.1 arguments
      · rw [Outlooks.callee, if_neg hknown] at arguments
        exact expr_foresees loops hms c hc ho.2.1 tc sc arguments
    · refine ⟨supplies_next hcall rfl exit ?_, fun heq => ?_, nofun, nofun⟩
      · have hdrop := drop_replicate_append args.length (Outlooks.callee fixed c args.length :: ms)
        simp only [Instr.pushes, Instr.pops, hargc]
        rw [← List.drop_drop, hdrop]
        rfl
      · cases heq
        exact ⟨ho.1, ⟨argc, hcall, hargc⟩, ms, rfl⟩
  | .intrinsic i args, h, ho, ht, s, exit => by
    obtain ⟨ha, argc, hcall, hargc⟩ := h
    simp only [Outlooks.expr, Stretch, along_append, along_cons, along_nil, Outlooks.length_exprs, and_true] at s ⊢
    obtain ⟨sa, scall⟩ := s
    have exit := exit.cast (m := pc + Size.exprs args + 1) (by simp only [Size.expr]; omega)
    refine ⟨exprs_foresees loops hms args ha ho.2 ht sa ⟨_, scall⟩, supplies_next hcall rfl exit ?_, nofun, fun heq => ?_, nofun⟩
    · simp only [Instr.pushes, Instr.pops, hargc, drop_replicate_append]
      rfl
    · cases heq
      exact ⟨ho.1, argc, hcall, hargc⟩
  | .index base position, h, ho, ht, s, exit => by
    obtain ⟨hb, hp, hindex⟩ := h
    obtain ⟨tb, tp⟩ := Bool.and_eq_true_iff.mp ht
    simp only [Outlooks.expr, Stretch, along_append, along_cons, along_nil, Outlooks.length_expr, and_true] at s ⊢
    obtain ⟨sb, sp, sindex⟩ := s
    have exit := exit.cast (m := pc + Size.expr base + Size.expr position + 1) (by simp only [Size.expr]; omega)
    exact ⟨expr_foresees loops hms base hb ho.1 tb sb (expr_expects position sp),
      expr_foresees loops (nofun : true = false → _) position hp ho.2 tp sp ⟨none, sindex⟩, .next hindex rfl exit⟩
  | .list items, h, ho, ht, s, exit => by
    obtain ⟨hi, count, hlist, hcount⟩ := h
    simp only [Outlooks.expr, Stretch, along_append, along_cons, along_nil, Outlooks.length_exprs, and_true] at s ⊢
    obtain ⟨si, slist⟩ := s
    have exit := exit.cast (m := pc + Size.exprs items + 1) (by simp only [Size.expr]; omega)
    refine ⟨exprs_foresees loops hms items hi ho ht si ⟨none, slist⟩, .next hlist rfl exit ?_⟩
    simp only [Instr.pushes, Instr.pops, hcount, drop_replicate_append]
    rfl
  | .branch condition body otherwise, h, ho, ht, s, exit => by
    obtain ⟨hc, hbranch, hb, hjump, he⟩ := h
    obtain ⟨ht, te⟩ := Bool.and_eq_true_iff.mp ht
    obtain ⟨tc, tb⟩ := Bool.and_eq_true_iff.mp ht
    simp only [Outlooks.expr, Stretch, along_append, along_cons, Outlooks.length_expr, Outlooks.length_block] at s ⊢
    obtain ⟨sc, sbranch, sb, sjump, se⟩ := s
    have exit := exit.cast (m := pc + Size.expr condition + 1 + Size.block body + 1 + Size.block otherwise)
      (by simp only [Size.expr]; omega)
    exact ⟨expr_foresees loops hms condition hc ho.1 tc sc ⟨none, sbranch⟩,
      .branch hbranch (block_expects body sb) (block_expects otherwise se),
      block_foresees loops hms body hb ho.2.1 tb sb ⟨none, sjump⟩, .jump hjump exit,
      block_foresees loops hms otherwise he ho.2.2 te se exit⟩
  | .block b, h, ho, ht, s, exit => block_foresees loops hms b h ho ht s exit

theorem exprs_foresees {loop : Option LoopTargets} {pending : Bool} {msl ms : List (Option Nat)} {pc : Nat}
    (loops : LoopsExpect outlooks loop msl) (hms : pending = false → ms = msl) : (es : List Expr) → Stands.exprs r loop pc es →
    Obeys.exprs rules es → Tidy.exprs pending es = true → Stretch outlooks pc (Outlooks.exprs fixed ms es) →
    Expects outlooks (pc + Size.exprs es) (List.replicate es.length none ++ ms) →
    Along (Foresees r rules fixed outlooks) pc (Outlooks.exprs fixed ms es)
  | [], _, _, _, _, _ => trivial
  | e :: es, h, ho, ht, s, exit => by
    obtain ⟨te, tes⟩ := Bool.and_eq_true_iff.mp ht
    simp only [Outlooks.exprs, Stretch, along_append, Outlooks.length_expr] at s ⊢
    have exit : Expects outlooks (pc + Size.expr e + Size.exprs es) (List.replicate es.length none ++ none :: ms) := by
      rw [replicate_append_cons, Nat.add_assoc]
      exact exit
    exact ⟨expr_foresees loops hms e h.1 ho.1 te s.1 (exprs_expects es s.2 exit),
      exprs_foresees loops (nofun : true = false → _) es h.2 ho.2 tes s.2 exit⟩

/-- A statement leaves the operands that it found. -/
theorem stmt_foresees {loop : Option LoopTargets} {pending : Bool} {msl ms : List (Option Nat)} {pc : Nat}
    (loops : LoopsExpect outlooks loop msl) (hms : pending = false → ms = msl) : (st : Stmt) → Stands.stmt r loop pc st →
    Obeys.stmt rules st → Tidy.stmt pending st = true → Stretch outlooks pc (Outlooks.stmt fixed ms st) →
    Expects outlooks (pc + Size.stmt st) ms → Along (Foresees r rules fixed outlooks) pc (Outlooks.stmt fixed ms st)
  | .store place value _, h, ho, ht, s, exit => by
    obtain ⟨hv, hstore⟩ := h
    simp only [Outlooks.stmt, Stretch, along_append, along_cons, along_nil, Outlooks.length_expr, and_true] at s ⊢
    have exit := exit.cast (m := pc + Size.expr value + 1) (by simp only [Size.stmt]; omega)
    refine ⟨expr_foresees loops hms value hv ho.2 ht s.1 ⟨none, s.2⟩, ?_⟩
    cases place with
    | frame index =>
      obtain ⟨i, hi, -⟩ := hstore
      exact .next hi rfl exit
    | slot record index =>
      obtain ⟨w, i, hi, -, -⟩ := hstore
      exact .next hi rfl exit
  | .setIndex base position value _, h, ho, ht, s, exit => by
    obtain ⟨hb, hp, hv, hset⟩ := h
    obtain ⟨ht, tv⟩ := Bool.and_eq_true_iff.mp ht
    obtain ⟨tb, tp⟩ := Bool.and_eq_true_iff.mp ht
    simp only [Outlooks.stmt, Stretch, along_append, along_cons, along_nil, Outlooks.length_expr, and_true] at s ⊢
    obtain ⟨sb, sp, sv, sset⟩ := s
    have exit := exit.cast (m := pc + Size.expr base + Size.expr position + Size.expr value + 1)
      (by simp only [Size.stmt]; omega)
    exact ⟨expr_foresees loops hms base hb ho.1 tb sb (expr_expects position sp),
      expr_foresees loops (nofun : true = false → _) position hp ho.2.1 tp sp (expr_expects value sv),
      expr_foresees loops (nofun : true = false → _) value hv ho.2.2 tv sv ⟨none, sset⟩, .next hset rfl exit⟩
  | .eval e _, h, ho, ht, s, exit => by
    simp only [Outlooks.stmt, Stretch, along_append, along_cons, along_nil, Outlooks.length_expr, and_true] at s ⊢
    have exit := exit.cast (m := pc + Size.expr e + 1) (by simp only [Size.stmt]; omega)
    exact ⟨expr_foresees loops hms e h.1 ho ht s.1 ⟨none, s.2⟩, .next h.2 rfl exit⟩
  | .ret value _, h, ho, ht, s, _ => by
    simp only [Outlooks.stmt, Stretch, along_append, along_cons, along_nil, Outlooks.length_expr, and_true] at s ⊢
    exact ⟨expr_foresees loops hms value h.1 ho ht s.1 ⟨none, s.2⟩, .ret h.2⟩
  | .loop condition body line, h, ho, ht, s, exit => by
    obtain ⟨hc, hbranch, hb, hpop, hjump⟩ := h
    obtain ⟨tc, tb⟩ := Bool.and_eq_true_iff.mp ht
    -- Jumps of the body go back to the condition or behind the loop, and the loop began with `ms`.
    have again : Expects outlooks pc ms := stmt_expects (.loop condition body line) s
    simp only [Outlooks.stmt, Stretch, along_append, along_cons, along_nil, Outlooks.length_expr, Outlooks.length_block,
      and_true] at s ⊢
    obtain ⟨sc, sbranch, sb, spop, sjump⟩ := s
    have exit := exit.cast (m := pc + Size.expr condition + 1 + Size.block body + 2) (by simp only [Size.stmt]; omega)
    have inner : LoopsExpect outlooks (some ⟨pc, pc + Size.expr condition + 1 + Size.block body + 2⟩) ms := by
      intro targets htargets
      cases htargets
      exact ⟨again, exit⟩
    exact ⟨expr_foresees loops hms condition hc ho.1 tc sc ⟨none, sbranch⟩, .branch hbranch (block_expects body sb) exit,
      block_foresees inner (fun _ => rfl) body hb ho.2 tb sb ⟨none, spop⟩, .next hpop rfl ⟨none, sjump⟩,
      .jump hjump again⟩
  | .leave _, ⟨targets, hloop, hjump⟩, _, ht, _, _ => by
    obtain rfl := hms (Bool.not_eq_true' _ ▸ ht)
    exact ⟨.jump hjump (loops targets hloop).2, trivial⟩
  | .next _, ⟨targets, hloop, hjump⟩, _, ht, _, _ => by
    obtain rfl := hms (Bool.not_eq_true' _ ▸ ht)
    exact ⟨.jump hjump (loops targets hloop).1, trivial⟩

theorem stmts_foresees {loop : Option LoopTargets} {pending : Bool} {msl ms : List (Option Nat)} {pc : Nat}
    (loops : LoopsExpect outlooks loop msl) (hms : pending = false → ms = msl) : (ss : List Stmt) → Stands.stmts r loop pc ss →
    Obeys.stmts rules ss → Tidy.stmts pending ss = true → Stretch outlooks pc (Outlooks.stmts fixed ms ss) →
    Expects outlooks (pc + Size.stmts ss) ms → Along (Foresees r rules fixed outlooks) pc (Outlooks.stmts fixed ms ss)
  | [], _, _, _, _, _ => trivial
  | st :: ss, h, ho, ht, s, exit => by
    obtain ⟨tst, tss⟩ := Bool.and_eq_true_iff.mp ht
    simp only [Outlooks.stmts, Stretch, along_append, Outlooks.length_stmt] at s ⊢
    have exit := exit.cast (m := pc + Size.stmt st + Size.stmts ss) (by simp only [Size.stmts]; omega)
    exact ⟨stmt_foresees loops hms st h.1 ho.1 tst s.1 (stmts_expects ss s.2 exit),
      stmts_foresees loops hms ss h.2 ho.2 tss s.2 exit⟩

theorem tail_foresees {loop : Option LoopTargets} {pending : Bool} {msl ms : List (Option Nat)} {pc : Nat}
    (loops : LoopsExpect outlooks loop msl) (hms : pending = false → ms = msl) : (t : Tail) → Stands.tail r loop pc t →
    Obeys.tail rules t → Tidy.tail pending t = true → Stretch outlooks pc (Outlooks.tail fixed ms t) →
    Expects outlooks (pc + Size.tail t) (none :: ms) → Along (Foresees r rules fixed outlooks) pc (Outlooks.tail fixed ms t)
  | .nothing, h, _, _, _, exit => ⟨.next h rfl exit, trivial⟩
  | .value e _, h, ho, ht, s, exit => expr_foresees loops hms e h ho ht s exit

theorem block_foresees {loop : Option LoopTargets} {pending : Bool} {msl ms : List (Option Nat)} {pc : Nat}
    (loops : LoopsExpect outlooks loop msl) (hms : pending = false → ms = msl) : (b : Block) → Stands.block r loop pc b →
    Obeys.block rules b → Tidy.block pending b = true → Stretch outlooks pc (Outlooks.block fixed ms b) →
    Expects outlooks (pc + Size.block b) (none :: ms) → Along (Foresees r rules fixed outlooks) pc (Outlooks.block fixed ms b)
  | .mk body last, h, ho, ht, s, exit => by
    obtain ⟨tbody, tlast⟩ := Bool.and_eq_true_iff.mp ht
    simp only [Outlooks.block, Stretch, along_append, Outlooks.length_stmts] at s ⊢
    have exit := exit.cast (m := pc + Size.stmts body + Size.tail last) (by simp only [Size.block]; omega)
    exact ⟨stmts_foresees loops hms body h.1 ho.1 tbody s.1 (tail_expects last s.2),
      tail_foresees loops hms last h.2 ho.2 tlast s.2 exit⟩

end

/-! ### Functions -/

end

namespace Outlooks
variable (fixed : Nat → Nat → Bool)

/-- The outlooks of storing functions into a record. -/
def stores (ss : List FunctionSlot) : List Outlook := ss.flatMap fun _ => [⟨[], none⟩, ⟨[none], none⟩]

def opening (p : Bound.Program) (index : Nat) : List Outlook :=
  if (opening? p index).isSome then ⟨[], none⟩ :: stores p.functionSlots else []

/-- The outlooks of a function: those of its body are between what opens the record and the return. -/
def function (p : Bound.Program) (index : Nat) (f : Func) : List Outlook :=
  opening p index ++ (block fixed [] f.body ++ [⟨[none], none⟩])

theorem length_stores (ss : List FunctionSlot) : (stores ss).length = ss.length * 2 := by
  induction ss with
  | nil => rfl
  | cons s ss ih =>
    rw [stores, List.flatMap_cons, List.length_append, ← stores, ih, List.length_cons]
    simp only [List.length_cons, List.length_nil]
    omega

theorem length_opening (p : Bound.Program) (index : Nat) : (opening p index).length = Size.opening p index := by
  unfold opening Size.opening
  split
  · rw [List.length_cons, length_stores]
  · rfl

end Outlooks

section
variable {r : Routine} {rules : Rules} {fixed : Nat → Nat → Bool} {outlooks : List Outlook}

theorem stores_foresees (rules : Rules) (fixed : Nat → Nat → Bool) {record : Nat} {ss : List FunctionSlot} {pc : Nat} (h : Stands.stores r record pc ss)
    (s : Stretch outlooks pc (Outlooks.stores ss)) (exit : Expects outlooks (pc + ss.length * 2) []) :
    Expects outlooks pc [] ∧ Along (Foresees r rules fixed outlooks) pc (Outlooks.stores ss) := by
  induction ss generalizing pc with
  | nil => exact ⟨exit, trivial⟩
  | cons s' ss ih =>
    obtain ⟨⟨f, hf, -⟩, ⟨w, i, hi, -, -⟩, hrest⟩ := h
    obtain ⟨sload, sstore, srest⟩ := s
    have exit := exit.cast (m := pc + 2 + ss.length * 2) (by rw [List.length_cons]; omega)
    obtain ⟨entry, foresees⟩ := ih hrest srest exit
    exact ⟨⟨none, sload⟩, .next hf rfl ⟨none, sstore⟩, .next hi rfl entry, foresees⟩

/-- Every instruction of a routine has an outlook, which is right. -/
structure Foretold (r : Routine) (rules : Rules) (fixed : Nat → Nat → Bool) (outlooks : List Outlook) : Prop where
  entry : Expects outlooks 0 []
  foresees : ∀ {pc : Nat} {o : Outlook}, outlooks[pc]? = some o → Foresees r rules fixed outlooks pc o

/-- The outlooks of a tidy function are right. -/
theorem function_foretold {p : Bound.Program} {index : Nat} {f : Func} (h : Stands.function r p index f)
    (obeys : Obeys.block rules f.body) (tidy : Tidy.block false f.body = true) :
    Foretold r rules fixed (Outlooks.function fixed p index f) := by
  obtain ⟨outlooks, houtlooks⟩ : ∃ outlooks, Outlooks.function fixed p index f = outlooks := ⟨_, rfl⟩
  have all : Stretch outlooks 0 (Outlooks.function fixed p index f) := by
    rw [houtlooks, Stretch, along_iff]
    intro k o hk
    rwa [Nat.zero_add]
  rw [houtlooks]
  rw [Outlooks.function, Stretch, along_append, along_append, Nat.zero_add, Outlooks.length_opening,
    Outlooks.length_block, along_cons] at all
  obtain ⟨sopening, sbody, sret, -⟩ := all
  have noLoop : LoopsExpect outlooks none [] := fun _ hloop => nomatch hloop
  have body : Along (Foresees r rules fixed outlooks) (Size.opening p index) (Outlooks.block fixed [] f.body) :=
    block_foresees noLoop (fun _ => rfl) f.body h.body obeys tidy sbody ⟨none, sret⟩
  have start : Expects outlooks 0 [] ∧ Along (Foresees r rules fixed outlooks) 0 (Outlooks.opening p index) := by
    have begin := block_expects f.body sbody
    cases hopening : opening? p index with
    | none =>
      simp only [Size.opening, Outlooks.opening, hopening] at begin ⊢
      exact ⟨begin, trivial⟩
    | some record =>
      obtain ⟨hopen, hstores⟩ := h.opening record hopening
      simp only [Size.opening, Outlooks.opening, hopening, Option.isSome_some, if_true] at begin sopening ⊢
      obtain ⟨sopen, sstores⟩ := sopening
      obtain ⟨entry, foresees⟩ := stores_foresees rules fixed hstores sstores (begin.cast (Nat.add_comm _ _))
      exact ⟨⟨none, sopen⟩, .next hopen rfl entry, foresees⟩
  refine ⟨start.1, fun {pc o} ho => ?_⟩
  have along : Along (Foresees r rules fixed outlooks) 0 (Outlooks.function fixed p index f) := by
    rw [Outlooks.function, along_append, along_append, Nat.zero_add, Outlooks.length_opening, Outlooks.length_block]
    exact ⟨start.2, body, .ret h.last, trivial⟩
  rw [houtlooks] at along
  have foresees := along_iff.mp along pc o ho
  rwa [Nat.zero_add] at foresees

end
end Lowering
end ScriptEngine
