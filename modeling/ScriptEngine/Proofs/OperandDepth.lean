import ScriptEngine.Proofs.Layout

/-! How many operands of its function an instruction finds on the stack. `Sites` gives every instruction of
    a bound tree its depth, in the order in which they are emitted; `Flow` says that an instruction takes
    no more than that and that the depth is right wherever control goes from there.

    A jump out of a loop does not take away what the expressions around it have pushed. The operands that
    it leaves behind are counted, and only they make the stack higher than the depth says. -/

namespace ScriptEngine

namespace Instr

/-- The number of operands that an instruction takes. -/
def pops : Instr → Nat
  | const _ | unit | bool _ | loadLocal _ | loadSlot .. | loadImport _ | loadFunction _ => 0
  | openRecord | jump _ => 0
  | storeLocal _ | storeSlot .. | neg | not | jumpIfFalse _ | pop | ret => 1
  | binary _ | index => 2
  | setIndex => 3
  | call argc => argc.toNat + 1
  | intrinsic _ argc => argc.toNat
  | makeList count => count.toNat

/-- The number of operands that are there instead when control goes on; a call gives one when it returns. -/
def pushes : Instr → Nat
  | const _ | unit | bool _ | loadLocal _ | loadSlot .. | loadImport _ | loadFunction _ => 1
  | neg | not | binary _ | index | call _ | intrinsic .. | makeList _ => 1
  | openRecord | jump _ | storeLocal _ | storeSlot .. | jumpIfFalse _ | pop | setIndex | ret => 0

/-- Where control can go in the same function from an instruction at `pc`. -/
def exits (pc : Nat) : Instr → List Nat
  | jump target => [target.toNat]
  | jumpIfFalse target => [pc + 1, target.toNat]
  | ret => []
  | _ => [pc + 1]

end Instr

namespace Lowering

/-- What is known of an instruction beforehand. -/
structure Site where
  /-- The number of operands of the running function on the stack. -/
  depth : Nat
  /-- The number of operands that are left on the stack although the code behind the jump does not count
      them. -/
  left : Nat
  deriving Repr, DecidableEq

namespace Sites

mutual

/-- The sites of an expression at depth `d`, when the innermost loop began at depth `dl`. -/
def expr (dl d : Nat) : Bound.Expr → List Site
  | .unit | .int _ | .float _ | .bool _ | .text _ | .load _ | .function _ | .imported _ => [⟨d, 0⟩]
  | .both left right =>
    expr dl d left ++ ⟨d + 1, 0⟩ :: (expr dl d right ++ [⟨d + 1, 0⟩, ⟨d, 0⟩, ⟨d + 1, 0⟩, ⟨d, 0⟩])
  | .either left right =>
    expr dl d left ++ ⟨d + 1, 0⟩ :: ⟨d, 0⟩ :: ⟨d + 1, 0⟩ ::
      (expr dl d right ++ [⟨d + 1, 0⟩, ⟨d, 0⟩, ⟨d + 1, 0⟩, ⟨d, 0⟩])
  | .operate _ left right => expr dl d left ++ (expr dl (d + 1) right ++ [⟨d + 2, 0⟩])
  | .unary _ operand => expr dl d operand ++ [⟨d + 1, 0⟩]
  | .call callee args => expr dl d callee ++ (exprs dl (d + 1) args ++ [⟨d + 1 + args.length, 0⟩])
  | .intrinsic _ args => exprs dl d args ++ [⟨d + args.length, 0⟩]
  | .index base position => expr dl d base ++ (expr dl (d + 1) position ++ [⟨d + 2, 0⟩])
  | .list items => exprs dl d items ++ [⟨d + items.length, 0⟩]
  | .branch condition body otherwise =>
    expr dl d condition ++ ⟨d + 1, 0⟩ :: (block dl d body ++ ⟨d + 1, 0⟩ :: block dl d otherwise)
  | .block b => block dl d b

/-- Expressions one after the other: each one finds the values of those before it. -/
def exprs (dl d : Nat) : List Bound.Expr → List Site
  | [] => []
  | e :: es => expr dl d e ++ exprs dl (d + 1) es

def stmt (dl d : Nat) : Bound.Stmt → List Site
  | .store _ value _ => expr dl d value ++ [⟨d + 1, 0⟩]
  | .setIndex base position value _ =>
    expr dl d base ++ (expr dl (d + 1) position ++ (expr dl (d + 2) value ++ [⟨d + 3, 0⟩]))
  | .eval e _ => expr dl d e ++ [⟨d + 1, 0⟩]
  | .ret value _ => expr dl d value ++ [⟨d + 1, 0⟩]
  | .loop condition body _ => expr dl d condition ++ ⟨d + 1, 0⟩ :: (block d d body ++ [⟨d + 1, 0⟩, ⟨d, 0⟩])
  -- What was pushed since the loop began stays on the stack.
  | .leave _ | .next _ => [⟨d, d - dl⟩]

def stmts (dl d : Nat) : List Bound.Stmt → List Site
  | [] => []
  | s :: ss => stmt dl d s ++ stmts dl d ss

def tail (dl d : Nat) : Bound.Tail → List Site
  | .nothing => [⟨d, 0⟩]
  | .value e _ => expr dl d e

def block (dl d : Nat) : Bound.Block → List Site
  | .mk body last => stmts dl d body ++ tail dl d last

end

mutual

/-- There is one site for each instruction. -/
theorem length_expr (dl d : Nat) : (e : Bound.Expr) → (expr dl d e).length = Size.expr e
  | .unit | .int _ | .float _ | .bool _ | .text _ | .load _ | .function _ | .imported _ => rfl
  | .both left right => by simp [expr, Size.expr, length_expr dl d left, length_expr dl d right]; omega
  | .either left right => by simp [expr, Size.expr, length_expr dl d left, length_expr dl d right]; omega
  | .operate _ left right => by
    simp [expr, Size.expr, length_expr dl d left, length_expr dl (d + 1) right, Nat.add_assoc]
  | .unary _ operand => by simp [expr, Size.expr, length_expr dl d operand]
  | .call callee args => by
    simp [expr, Size.expr, length_expr dl d callee, length_exprs dl (d + 1) args, Nat.add_assoc]
  | .intrinsic _ args => by simp [expr, Size.expr, length_exprs dl d args]
  | .index base position => by
    simp [expr, Size.expr, length_expr dl d base, length_expr dl (d + 1) position, Nat.add_assoc]
  | .list items => by simp [expr, Size.expr, length_exprs dl d items]
  | .branch condition body otherwise => by
    simp [expr, Size.expr, length_expr dl d condition, length_block dl d body, length_block dl d otherwise]
    omega
  | .block b => by rw [expr, Size.expr, length_block dl d b]

theorem length_exprs (dl d : Nat) : (es : List Bound.Expr) → (exprs dl d es).length = Size.exprs es
  | [] => rfl
  | e :: es => by rw [exprs, Size.exprs, List.length_append, length_expr dl d e, length_exprs dl (d + 1) es]

theorem length_stmt (dl d : Nat) : (s : Bound.Stmt) → (stmt dl d s).length = Size.stmt s
  | .store _ value _ => by simp [stmt, Size.stmt, length_expr dl d value]
  | .setIndex base position value _ => by
    simp [stmt, Size.stmt, length_expr dl d base, length_expr dl (d + 1) position, length_expr dl (d + 2) value,
      Nat.add_assoc]
  | .eval e _ => by simp [stmt, Size.stmt, length_expr dl d e]
  | .ret value _ => by simp [stmt, Size.stmt, length_expr dl d value]
  | .loop condition body _ => by
    simp [stmt, Size.stmt, length_expr dl d condition, length_block d d body]
    omega
  | .leave _ | .next _ => rfl

theorem length_stmts (dl d : Nat) : (ss : List Bound.Stmt) → (stmts dl d ss).length = Size.stmts ss
  | [] => rfl
  | s :: ss => by rw [stmts, Size.stmts, List.length_append, length_stmt dl d s, length_stmts dl d ss]

theorem length_tail (dl d : Nat) : (t : Bound.Tail) → (tail dl d t).length = Size.tail t
  | .nothing => rfl
  | .value e _ => by rw [tail, Size.tail, length_expr dl d e]

theorem length_block (dl d : Nat) : (b : Bound.Block) → (block dl d b).length = Size.block b
  | .mk body last => by rw [block, Size.block, List.length_append, length_stmts dl d body, length_tail dl d last]

end

end Sites
/-! ### Sites of a routine -/

/-- A property of every element of a list and its address, the first one at `pc`. -/
def Along {α : Type} (P : Nat → α → Prop) : Nat → List α → Prop
  | _, [] => True
  | pc, x :: xs => P pc x ∧ Along P (pc + 1) xs

section
variable {α : Type} {P Q : Nat → α → Prop} {pc : Nat} {x : α} {xs ys : List α}

theorem along_nil : Along P pc [] ↔ True := Iff.rfl

theorem along_cons : Along P pc (x :: xs) ↔ P pc x ∧ Along P (pc + 1) xs := Iff.rfl

theorem along_append : Along P pc (xs ++ ys) ↔ Along P pc xs ∧ Along P (pc + xs.length) ys := by
  induction xs generalizing pc with
  | nil => simp [along_nil]
  | cons x xs ih => rw [List.cons_append, along_cons, along_cons, ih, and_assoc, List.length_cons, Nat.add_assoc,
      Nat.add_comm 1]

theorem along_iff : Along P pc xs ↔ ∀ k x, xs[k]? = some x → P (pc + k) x := by
  induction xs generalizing pc with
  | nil => simp [along_nil]
  | cons x xs ih =>
    rw [along_cons, ih]
    constructor
    · rintro ⟨hx, hxs⟩ k y hk
      cases k with
      | zero =>
        cases hk
        exact hx
      | succ k =>
        rw [Nat.add_comm k, ← Nat.add_assoc]
        exact hxs k y hk
    · intro h
      refine ⟨h 0 x rfl, fun k y hk => ?_⟩
      rw [Nat.add_assoc, Nat.add_comm 1]
      exact h (k + 1) y hk

theorem Along.imp (h : Along P pc xs) (himp : ∀ a x, P a x → Q a x) : Along Q pc xs :=
  along_iff.mpr fun k x hk => himp _ x (along_iff.mp h k x hk)

end

/-- The depth at an address of a routine with these sites. -/
def At (sites : List Site) (pc depth : Nat) : Prop := ∃ left, sites[pc]? = some ⟨depth, left⟩

/-- The sites of a part of a routine, which stands at `pc`. -/
def Marks (sites : List Site) (pc : Nat) (part : List Site) : Prop := Along (fun a s => sites[a]? = some s) pc part

/-- The depths at which the jumps out of the innermost loop arrive. -/
def Loops (sites : List Site) (loop : Option LoopTargets) (dl : Nat) : Prop :=
  ∀ targets, loop = some targets → At sites targets.start dl ∧ At sites targets.exit dl

section
variable {sites : List Site} {pc m d : Nat}

theorem At.cast (h : At sites pc d) (hpc : pc = m) : At sites m d := hpc ▸ h

theorem Marks.head {s : Site} {part : List Site} (h : Marks sites pc (s :: part)) : At sites pc s.depth := ⟨s.left, h.1⟩

end

mutual

/-- An expression begins at its own depth. -/
theorem expr_entry {sites : List Site} {pc d dl : Nat} : (e : Bound.Expr) → Marks sites pc (Sites.expr dl d e) → At sites pc d
  | .unit, h | .int _, h | .float _, h | .bool _, h | .text _, h | .load _, h | .function _, h | .imported _, h =>
    h.head
  | .both left _, h | .either left _, h | .operate _ left _, h => expr_entry left (along_append.mp h).1
  | .unary _ operand, h => expr_entry operand (along_append.mp h).1
  | .call callee _, h => expr_entry callee (along_append.mp h).1
  | .intrinsic _ args, h => by
    obtain ⟨hargs, hlast, -⟩ := along_append.mp h
    rw [Sites.length_exprs] at hlast
    exact exprs_entry args hargs ⟨0, hlast⟩
  | .index base _, h => expr_entry base (along_append.mp h).1
  | .list items, h => by
    obtain ⟨hitems, hlast, -⟩ := along_append.mp h
    rw [Sites.length_exprs] at hlast
    exact exprs_entry items hitems ⟨0, hlast⟩
  | .branch condition _ _, h => expr_entry condition (along_append.mp h).1
  | .block b, h => block_entry b h

theorem exprs_entry {sites : List Site} {pc d dl : Nat} : (es : List Bound.Expr) → Marks sites pc (Sites.exprs dl d es) →
    At sites (pc + Size.exprs es) (d + es.length) → At sites pc d
  | [], _, exit => exit
  | e :: _, h, _ => expr_entry e (along_append.mp h).1

theorem stmt_entry {sites : List Site} {pc d dl : Nat} : (s : Bound.Stmt) → Marks sites pc (Sites.stmt dl d s) → At sites pc d
  | .store _ value _, h => expr_entry value (along_append.mp h).1
  | .setIndex base _ _ _, h => expr_entry base (along_append.mp h).1
  | .eval e _, h => expr_entry e (along_append.mp h).1
  | .ret value _, h => expr_entry value (along_append.mp h).1
  | .loop condition _ _, h => expr_entry condition (along_append.mp h).1
  | .leave _, h | .next _, h => h.head

theorem stmts_entry {sites : List Site} {pc d dl : Nat} : (ss : List Bound.Stmt) → Marks sites pc (Sites.stmts dl d ss) →
    At sites (pc + Size.stmts ss) d → At sites pc d
  | [], _, exit => exit
  | s :: _, h, _ => stmt_entry s (along_append.mp h).1

theorem tail_entry {sites : List Site} {pc d dl : Nat} : (t : Bound.Tail) → Marks sites pc (Sites.tail dl d t) → At sites pc d
  | .nothing, h => h.head
  | .value e _, h => expr_entry e h

theorem block_entry {sites : List Site} {pc d dl : Nat} : (b : Bound.Block) → Marks sites pc (Sites.block dl d b) → At sites pc d
  | .mk body last, h => by
    obtain ⟨hbody, hlast⟩ := along_append.mp h
    rw [Sites.length_stmts] at hlast
    exact stmts_entry body hbody (tail_entry last hlast)

end

/-! ### Flow -/

/-- The instruction at `pc` takes only operands above `floor`, and wherever control goes from it, the depth
    there is what remains, but for what is left behind. -/
def Flow (r : Routine) (sites : List Site) (floor pc : Nat) (s : Site) : Prop :=
  ∀ i, r.Holds pc i → floor + i.pops ≤ s.depth ∧
    ∀ next ∈ i.exits pc, ∃ depth, At sites next depth ∧ s.depth + i.pushes = depth + i.pops + s.left

section
variable {r : Routine} {sites : List Site} {floor pc d : Nat} {s : Site}

theorem Flow.mono {floor' : Nat} (h : Flow r sites floor pc s) (hle : floor' ≤ floor) : Flow r sites floor' pc s := by
  intro i hi
  obtain ⟨hpops, hexits⟩ := h i hi
  exact ⟨by omega, hexits⟩

/-- An instruction is what stands at its address. -/
theorem Flow.of_holds {i : Instr} (hi : r.Holds pc i) (hpops : floor + i.pops ≤ s.depth)
    (hexits : ∀ next ∈ i.exits pc, ∃ depth, At sites next depth ∧ s.depth + i.pushes = depth + i.pops + s.left) :
    Flow r sites floor pc s := by
  intro j hj
  obtain rfl : i = j := Option.some.inj (hi.symm.trans hj)
  exact ⟨hpops, hexits⟩

/-- An instruction after which control goes on behind it. -/
theorem Flow.next {i : Instr} (hi : r.Holds pc i) (hexits : i.exits pc = [pc + 1]) (exit : At sites (pc + 1) d)
    (hpops : floor + i.pops ≤ s.depth := by simp [Instr.pops] <;> omega)
    (hdepth : s.depth + i.pushes = d + i.pops + s.left := by simp [Instr.pops, Instr.pushes] <;> omega) :
    Flow r sites floor pc s := by
  refine .of_holds hi hpops fun next hnext => ⟨d, ?_, hdepth⟩
  rw [hexits, List.mem_singleton] at hnext
  exact hnext ▸ exit

theorem Flow.jump {target : Nat} (hi : r.JumpsAt pc target) (exit : At sites target d) (hfloor : floor ≤ s.depth)
    (hdepth : s.depth = d + s.left) : Flow r sites floor pc s := by
  obtain ⟨x, hx, rfl⟩ := hi
  refine .of_holds hx hfloor fun next hnext => ⟨d, ?_, hdepth⟩
  have hnext : next = x.toNat := List.mem_singleton.mp hnext
  exact hnext ▸ exit

theorem Flow.branch {target : Nat} (hi : r.BranchesAt pc target) (hnext : At sites (pc + 1) d)
    (htarget : At sites target d) (hfloor : floor ≤ d) : Flow r sites floor pc ⟨d + 1, 0⟩ := by
  obtain ⟨x, hx, rfl⟩ := hi
  refine .of_holds hx (by simp only [Instr.pops]; omega) fun next hmem => ⟨d, ?_, rfl⟩
  rcases List.mem_cons.mp hmem with rfl | hmem
  · exact hnext
  · obtain rfl := List.mem_singleton.mp hmem
    exact htarget

end

mutual

/-- Depths are right throughout an expression that ends one operand higher than it began. -/
theorem expr_flows {r : Routine} {sites : List Site} {loop : Option LoopTargets} {dl d pc : Nat}
    (loops : Loops sites loop dl) (hdl : dl ≤ d) : (e : Bound.Expr) → Stands.expr r loop pc e →
    Marks sites pc (Sites.expr dl d e) → At sites (pc + Size.expr e) (d + 1) →
    Along (Flow r sites d) pc (Sites.expr dl d e)
  | .unit, h, _, exit => ⟨.next h rfl exit, trivial⟩
  | .bool _, h, _, exit => ⟨.next h rfl exit, trivial⟩
  | .int _, ⟨_, h, _⟩, _, exit => ⟨.next h rfl exit, trivial⟩
  | .float _, ⟨_, h, _⟩, _, exit => ⟨.next h rfl exit, trivial⟩
  | .text _, ⟨_, h, _⟩, _, exit => ⟨.next h rfl exit, trivial⟩
  | .load (.frame _), ⟨_, h, _⟩, _, exit => ⟨.next h rfl exit, trivial⟩
  | .load (.slot _ _), ⟨_, _, h, _, _⟩, _, exit => ⟨.next h rfl exit, trivial⟩
  | .function _, ⟨_, h, _⟩, _, exit => ⟨.next h rfl exit, trivial⟩
  | .imported _, ⟨_, h, _⟩, _, exit => ⟨.next h rfl exit, trivial⟩
  | .both left right, h, marks, exit => by
    obtain ⟨hl, hbl, hr, hbr, htrue, hjump, hfalse⟩ := h
    simp only [Sites.expr, Marks, along_append, along_cons, along_nil, Sites.length_expr, and_true] at marks ⊢
    obtain ⟨ml, mbl, mr, mbr, mtrue, mjump, mfalse⟩ := marks
    have exit := exit.cast (m := pc + Size.expr left + 1 + Size.expr right + 4) (by simp only [Size.expr]; omega)
    exact ⟨expr_flows loops hdl left hl ml ⟨0, mbl⟩, .branch hbl (expr_entry right mr) ⟨0, mfalse⟩ (Nat.le_refl d),
      expr_flows loops hdl right hr mr ⟨0, mbr⟩, .branch hbr ⟨0, mtrue⟩ ⟨0, mfalse⟩ (Nat.le_refl d),
      .next htrue rfl ⟨0, mjump⟩, .jump hjump exit (by simp) rfl, .next hfalse rfl exit⟩
  | .either left right, h, marks, exit => by
    obtain ⟨hl, hbl, htrue₁, hjump₁, hr, hbr, htrue₂, hjump₂, hfalse⟩ := h
    simp only [Sites.expr, Marks, along_append, along_cons, along_nil, Sites.length_expr, and_true] at marks ⊢
    obtain ⟨ml, mbl, mtrue₁, mjump₁, mr, mbr, mtrue₂, mjump₂, mfalse⟩ := marks
    have exit := exit.cast (m := pc + Size.expr left + 3 + Size.expr right + 4) (by simp only [Size.expr]; omega)
    exact ⟨expr_flows loops hdl left hl ml ⟨0, mbl⟩,
      .branch hbl ⟨0, mtrue₁⟩ (expr_entry right mr) (Nat.le_refl d), .next htrue₁ rfl ⟨0, mjump₁⟩,
      .jump hjump₁ exit (by simp) rfl, expr_flows loops hdl right hr mr ⟨0, mbr⟩,
      .branch hbr ⟨0, mtrue₂⟩ ⟨0, mfalse⟩ (Nat.le_refl d), .next htrue₂ rfl ⟨0, mjump₂⟩,
      .jump hjump₂ exit (by simp) rfl, .next hfalse rfl exit⟩
  | .operate op left right, h, marks, exit => by
    obtain ⟨hl, hr, hop⟩ := h
    simp only [Sites.expr, Marks, along_append, along_cons, along_nil, Sites.length_expr, and_true] at marks ⊢
    obtain ⟨ml, mr, mop⟩ := marks
    have exit := exit.cast (m := pc + Size.expr left + Size.expr right + 1) (by simp only [Size.expr]; omega)
    have hright := expr_flows loops (Nat.le_succ_of_le hdl) right hr mr ⟨0, mop⟩
    exact ⟨expr_flows loops hdl left hl ml (expr_entry right mr), hright.imp fun _ _ h => h.mono (Nat.le_succ d),
      .next hop rfl exit⟩
  | .unary op operand, h, marks, exit => by
    obtain ⟨he, hop⟩ := h
    simp only [Sites.expr, Marks, along_append, along_cons, along_nil, Sites.length_expr, and_true] at marks ⊢
    obtain ⟨me, mop⟩ := marks
    have exit := exit.cast (m := pc + Size.expr operand + 1) (by simp only [Size.expr]; omega)
    refine ⟨expr_flows loops hdl operand he me ⟨0, mop⟩, ?_⟩
    cases op with
    | neg => exact .next (i := .neg) hop rfl exit
    | not => exact .next (i := .not) hop rfl exit
  | .call callee args, h, marks, exit => by
    obtain ⟨hc, ha, argc, hcall, hargc⟩ := h
    simp only [Sites.expr, Marks, along_append, along_cons, along_nil, Sites.length_expr, Sites.length_exprs,
      and_true] at marks ⊢
    obtain ⟨mc, ma, mcall⟩ := marks
    have exit := exit.cast (m := pc + Size.expr callee + Size.exprs args + 1) (by simp only [Size.expr]; omega)
    have hargs := exprs_flows loops (Nat.le_succ_of_le hdl) args ha ma ⟨0, mcall⟩
    exact ⟨expr_flows loops hdl callee hc mc (exprs_entry args ma ⟨0, mcall⟩),
      hargs.imp fun _ _ h => h.mono (Nat.le_succ d), .next hcall rfl exit⟩
  | .intrinsic i args, h, marks, exit => by
    obtain ⟨ha, argc, hcall, hargc⟩ := h
    simp only [Sites.expr, Marks, along_append, along_cons, along_nil, Sites.length_exprs, and_true] at marks ⊢
    obtain ⟨ma, mcall⟩ := marks
    have exit := exit.cast (m := pc + Size.exprs args + 1) (by simp only [Size.expr]; omega)
    exact ⟨exprs_flows loops hdl args ha ma ⟨0, mcall⟩, .next hcall rfl exit⟩
  | .index base position, h, marks, exit => by
    obtain ⟨hb, hp, hindex⟩ := h
    simp only [Sites.expr, Marks, along_append, along_cons, along_nil, Sites.length_expr, and_true] at marks ⊢
    obtain ⟨mb, mp, mindex⟩ := marks
    have exit := exit.cast (m := pc + Size.expr base + Size.expr position + 1) (by simp only [Size.expr]; omega)
    have hposition := expr_flows loops (Nat.le_succ_of_le hdl) position hp mp ⟨0, mindex⟩
    exact ⟨expr_flows loops hdl base hb mb (expr_entry position mp),
      hposition.imp fun _ _ h => h.mono (Nat.le_succ d), .next hindex rfl exit⟩
  | .list items, h, marks, exit => by
    obtain ⟨hi, count, hlist, hcount⟩ := h
    simp only [Sites.expr, Marks, along_append, along_cons, along_nil, Sites.length_exprs, and_true] at marks ⊢
    obtain ⟨mi, mlist⟩ := marks
    have exit := exit.cast (m := pc + Size.exprs items + 1) (by simp only [Size.expr]; omega)
    exact ⟨exprs_flows loops hdl items hi mi ⟨0, mlist⟩, .next hlist rfl exit⟩
  | .branch condition body otherwise, h, marks, exit => by
    obtain ⟨hc, hbranch, hb, hjump, ho⟩ := h
    simp only [Sites.expr, Marks, along_append, along_cons, Sites.length_expr, Sites.length_block] at marks ⊢
    obtain ⟨mc, mbranch, mb, mjump, mo⟩ := marks
    have exit := exit.cast (m := pc + Size.expr condition + 1 + Size.block body + 1 + Size.block otherwise)
      (by simp only [Size.expr]; omega)
    exact ⟨expr_flows loops hdl condition hc mc ⟨0, mbranch⟩,
      .branch hbranch (block_entry body mb) (block_entry otherwise mo) (Nat.le_refl d),
      block_flows loops hdl body hb mb ⟨0, mjump⟩, .jump hjump exit (by simp) rfl,
      block_flows loops hdl otherwise ho mo exit⟩
  | .block b, h, marks, exit => block_flows loops hdl b h marks exit

theorem exprs_flows {r : Routine} {sites : List Site} {loop : Option LoopTargets} {dl d pc : Nat}
    (loops : Loops sites loop dl) (hdl : dl ≤ d) : (es : List Bound.Expr) → Stands.exprs r loop pc es →
    Marks sites pc (Sites.exprs dl d es) → At sites (pc + Size.exprs es) (d + es.length) →
    Along (Flow r sites d) pc (Sites.exprs dl d es)
  | [], _, _, _ => trivial
  | e :: es, h, marks, exit => by
    obtain ⟨he, hes⟩ := h
    simp only [Sites.exprs, Marks, along_append, Sites.length_expr] at marks ⊢
    obtain ⟨me, mes⟩ := marks
    have exit : At sites (pc + Size.expr e + Size.exprs es) (d + 1 + es.length) := by
      rw [Nat.add_assoc, Nat.add_assoc, Nat.add_comm 1]
      exact exit
    have hrest := exprs_flows loops (Nat.le_succ_of_le hdl) es hes mes exit
    exact ⟨expr_flows loops hdl e he me (exprs_entry es mes exit), hrest.imp fun _ _ h => h.mono (Nat.le_succ d)⟩

/-- Depths are right throughout a statement, which ends at the depth at which it began. -/
theorem stmt_flows {r : Routine} {sites : List Site} {loop : Option LoopTargets} {dl d pc : Nat}
    (loops : Loops sites loop dl) (hdl : dl ≤ d) : (s : Bound.Stmt) → Stands.stmt r loop pc s →
    Marks sites pc (Sites.stmt dl d s) → At sites (pc + Size.stmt s) d → Along (Flow r sites d) pc (Sites.stmt dl d s)
  | .store place value _, h, marks, exit => by
    obtain ⟨hv, hstore⟩ := h
    simp only [Sites.stmt, Marks, along_append, along_cons, along_nil, Sites.length_expr, and_true] at marks ⊢
    obtain ⟨mv, mstore⟩ := marks
    have exit := exit.cast (m := pc + Size.expr value + 1) (by simp only [Size.stmt]; omega)
    refine ⟨expr_flows loops hdl value hv mv ⟨0, mstore⟩, ?_⟩
    cases place with
    | frame index =>
      obtain ⟨i, hi, -⟩ := hstore
      exact .next hi rfl exit
    | slot record index =>
      obtain ⟨w, i, hi, -, -⟩ := hstore
      exact .next hi rfl exit
  | .setIndex base position value _, h, marks, exit => by
    obtain ⟨hb, hp, hv, hset⟩ := h
    simp only [Sites.stmt, Marks, along_append, along_cons, along_nil, Sites.length_expr, and_true] at marks ⊢
    obtain ⟨mb, mp, mv, mset⟩ := marks
    have exit := exit.cast (m := pc + Size.expr base + Size.expr position + Size.expr value + 1)
      (by simp only [Size.stmt]; omega)
    have hposition := expr_flows loops (Nat.le_succ_of_le hdl) position hp mp (expr_entry value mv)
    have hvalue := expr_flows loops (Nat.le_add_right_of_le hdl) value hv mv ⟨0, mset⟩
    exact ⟨expr_flows loops hdl base hb mb (expr_entry position mp),
      hposition.imp fun _ _ h => h.mono (Nat.le_succ d), hvalue.imp fun _ _ h => h.mono (Nat.le_add_right d 2),
      .next hset rfl exit⟩
  | .eval e _, h, marks, exit => by
    obtain ⟨he, hpop⟩ := h
    simp only [Sites.stmt, Marks, along_append, along_cons, along_nil, Sites.length_expr, and_true] at marks ⊢
    obtain ⟨me, mpop⟩ := marks
    have exit := exit.cast (m := pc + Size.expr e + 1) (by simp only [Size.stmt]; omega)
    exact ⟨expr_flows loops hdl e he me ⟨0, mpop⟩, .next hpop rfl exit⟩
  | .ret value _, h, marks, _ => by
    obtain ⟨hv, hret⟩ := h
    simp only [Sites.stmt, Marks, along_append, along_cons, along_nil, Sites.length_expr, and_true] at marks ⊢
    obtain ⟨mv, mret⟩ := marks
    exact ⟨expr_flows loops hdl value hv mv ⟨0, mret⟩,
      .of_holds hret (Nat.le_refl _) fun _ hnext => absurd hnext List.not_mem_nil⟩
  | .loop condition body _, h, marks, exit => by
    obtain ⟨hc, hbranch, hb, hpop, hjump⟩ := h
    -- Jumps of the body go back to the condition or behind the loop, and the loop begins at `d`.
    have again : At sites pc d := stmt_entry (.loop condition body 0) marks
    simp only [Sites.stmt, Marks, along_append, along_cons, along_nil, Sites.length_expr, Sites.length_block,
      and_true] at marks ⊢
    obtain ⟨mc, mbranch, mb, mpop, mjump⟩ := marks
    have exit := exit.cast (m := pc + Size.expr condition + 1 + Size.block body + 2) (by simp only [Size.stmt]; omega)
    have inner : Loops sites (some ⟨pc, pc + Size.expr condition + 1 + Size.block body + 2⟩) d := by
      intro targets htargets
      cases htargets
      exact ⟨again, exit⟩
    exact ⟨expr_flows loops hdl condition hc mc ⟨0, mbranch⟩,
      .branch hbranch (block_entry body mb) exit (Nat.le_refl d),
      block_flows inner (Nat.le_refl d) body hb mb ⟨0, mpop⟩, .next hpop rfl ⟨0, mjump⟩,
      .jump hjump again (Nat.le_refl d) rfl⟩
  | .leave _, ⟨targets, hloop, hjump⟩, _, _ =>
    ⟨.jump hjump (loops targets hloop).2 (Nat.le_refl d) (by simp only; omega), trivial⟩
  | .next _, ⟨targets, hloop, hjump⟩, _, _ =>
    ⟨.jump hjump (loops targets hloop).1 (Nat.le_refl d) (by simp only; omega), trivial⟩

theorem stmts_flows {r : Routine} {sites : List Site} {loop : Option LoopTargets} {dl d pc : Nat}
    (loops : Loops sites loop dl) (hdl : dl ≤ d) : (ss : List Bound.Stmt) → Stands.stmts r loop pc ss →
    Marks sites pc (Sites.stmts dl d ss) → At sites (pc + Size.stmts ss) d →
    Along (Flow r sites d) pc (Sites.stmts dl d ss)
  | [], _, _, _ => trivial
  | s :: ss, h, marks, exit => by
    obtain ⟨hs, hss⟩ := h
    simp only [Sites.stmts, Marks, along_append, Sites.length_stmt] at marks ⊢
    obtain ⟨ms, mss⟩ := marks
    have exit := exit.cast (m := pc + Size.stmt s + Size.stmts ss) (by simp only [Size.stmts]; omega)
    exact ⟨stmt_flows loops hdl s hs ms (stmts_entry ss mss exit), stmts_flows loops hdl ss hss mss exit⟩

theorem tail_flows {r : Routine} {sites : List Site} {loop : Option LoopTargets} {dl d pc : Nat}
    (loops : Loops sites loop dl) (hdl : dl ≤ d) : (t : Bound.Tail) → Stands.tail r loop pc t →
    Marks sites pc (Sites.tail dl d t) → At sites (pc + Size.tail t) (d + 1) →
    Along (Flow r sites d) pc (Sites.tail dl d t)
  | .nothing, h, _, exit => ⟨.next h rfl exit, trivial⟩
  | .value e _, h, marks, exit => expr_flows loops hdl e h marks exit

theorem block_flows {r : Routine} {sites : List Site} {loop : Option LoopTargets} {dl d pc : Nat}
    (loops : Loops sites loop dl) (hdl : dl ≤ d) : (b : Bound.Block) → Stands.block r loop pc b →
    Marks sites pc (Sites.block dl d b) → At sites (pc + Size.block b) (d + 1) →
    Along (Flow r sites d) pc (Sites.block dl d b)
  | .mk body last, h, marks, exit => by
    obtain ⟨hbody, hlast⟩ := h
    simp only [Sites.block, Marks, along_append, Sites.length_stmts] at marks ⊢
    obtain ⟨mbody, mlast⟩ := marks
    have exit := exit.cast (m := pc + Size.stmts body + Size.tail last) (by simp only [Size.block]; omega)
    exact ⟨stmts_flows loops hdl body hbody mbody (tail_entry last mlast),
      tail_flows loops hdl last hlast mlast exit⟩

end

/-! ### Functions -/

namespace Sites

/-- The sites of storing functions into a record. -/
def stores (ss : List Bound.FunctionSlot) : List Site := ss.flatMap fun _ => [⟨0, 0⟩, ⟨1, 0⟩]

def opening (p : Bound.Program) (index : Nat) : List Site :=
  if (opening? p index).isSome then ⟨0, 0⟩ :: stores p.functionSlots else []

/-- The sites of a function: those of its body are between what opens the record and the return. -/
def function (p : Bound.Program) (index : Nat) (f : Bound.Func) : List Site :=
  opening p index ++ (block 0 0 f.body ++ [⟨1, 0⟩])

theorem length_stores (ss : List Bound.FunctionSlot) : (stores ss).length = ss.length * 2 := by
  induction ss with
  | nil => rfl
  | cons s ss ih =>
    rw [stores, List.flatMap_cons, List.length_append, ← stores, ih, List.length_cons]
    simp only [List.length_cons, List.length_nil]
    omega

theorem length_opening (p : Bound.Program) (index : Nat) : (opening p index).length = Size.opening p index := by
  unfold opening Size.opening
  split
  · rw [List.length_cons, length_stores]
  · rfl

end Sites

theorem marks_self (sites : List Site) : Marks sites 0 sites := by
  rw [Marks, along_iff]
  intro k s hk
  rwa [Nat.zero_add]

theorem stores_flows {r : Routine} {sites : List Site} {record : Nat} {ss : List Bound.FunctionSlot} {pc : Nat}
    (h : Stands.stores r record pc ss) (marks : Marks sites pc (Sites.stores ss)) (exit : At sites (pc + ss.length * 2) 0) :
    At sites pc 0 ∧ Along (Flow r sites 0) pc (Sites.stores ss) := by
  induction ss generalizing pc with
  | nil => exact ⟨exit, trivial⟩
  | cons s ss ih =>
    obtain ⟨⟨f, hf, -⟩, ⟨w, i, hi, -, -⟩, hrest⟩ := h
    obtain ⟨mload, mstore, mrest⟩ := marks
    have exit := exit.cast (m := pc + 2 + ss.length * 2) (by rw [List.length_cons]; omega)
    obtain ⟨entry, flows⟩ := ih hrest mrest exit
    exact ⟨⟨0, mload⟩, .next hf rfl ⟨0, mstore⟩, .next hi rfl entry, flows⟩

/-- Every instruction of a routine has a site, and the depths are right throughout. -/
structure Flows (r : Routine) (sites : List Site) : Prop where
  size : sites.length = r.code.size
  entry : At sites 0 0
  flow : ∀ {pc : Nat} {s : Site}, sites[pc]? = some s → Flow r sites 0 pc s

/-- The code of a function is sound: its operands are always there. -/
theorem function_flows {r : Routine} {p : Bound.Program} {index : Nat} {f : Bound.Func}
    (h : Stands.function r p index f) : Flows r (Sites.function p index f) := by
  obtain ⟨sites, hsites⟩ : ∃ sites, Sites.function p index f = sites := ⟨_, rfl⟩
  have all : Marks sites 0 (Sites.function p index f) := hsites ▸ marks_self _
  rw [hsites]
  rw [Sites.function, Marks, along_append, along_append, Nat.zero_add, Sites.length_opening, Sites.length_block,
    along_cons] at all
  obtain ⟨mopening, mbody, mret, -⟩ := all
  have noLoop : Loops sites none 0 := by
    intro targets hloop
    cases hloop
  have body := block_flows noLoop (Nat.le_refl 0) f.body h.body mbody ⟨0, mret⟩
  have ret : Flow r sites 0 (Size.opening p index + Size.block f.body) ⟨1, 0⟩ :=
    .of_holds h.last (Nat.le_refl 1) fun _ hnext => absurd hnext List.not_mem_nil
  have start : At sites 0 0 ∧ Along (Flow r sites 0) 0 (Sites.opening p index) := by
    have begin := block_entry f.body mbody
    cases hopening : opening? p index with
    | none =>
      simp only [Size.opening, Sites.opening, hopening] at begin ⊢
      exact ⟨begin, trivial⟩
    | some record =>
      obtain ⟨hopen, hstores⟩ := h.opening record hopening
      simp only [Size.opening, Sites.opening, hopening, Option.isSome_some, if_true] at begin mopening ⊢
      obtain ⟨mopen, mstores⟩ := mopening
      obtain ⟨entry, flows⟩ := stores_flows hstores mstores (begin.cast (Nat.add_comm _ _))
      exact ⟨⟨0, mopen⟩, .next hopen rfl entry, flows⟩
  refine ⟨?_, start.1, ?_⟩
  · rw [h.size, ← hsites, Sites.function, List.length_append, List.length_append, Sites.length_opening,
      Sites.length_block, List.length_singleton, Nat.add_assoc]
  · have flows : Along (Flow r sites 0) 0 (Sites.function p index f) := by
      rw [Sites.function, along_append, along_append, Nat.zero_add, Sites.length_opening, Sites.length_block]
      exact ⟨start.2, body, ret, trivial⟩
    rw [hsites] at flows
    intro pc s hs
    have flow := along_iff.mp flows pc s hs
    rwa [Nat.zero_add] at flow

end Lowering
end ScriptEngine
