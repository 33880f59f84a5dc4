import ScriptEngine.Proofs.OperandDepth
import ScriptEngine.Proofs.WrittenLocals

/-! Which locals are written before an instruction, on whatever way control comes to it. `Locals` gives the list for every
    instruction of a bound tree, in the order in which they are emitted; `Feeds` says that an instruction reads only
    locals of its list, and that the list is long enough wherever control goes from there. So in the code of a settled
    function no way from the beginning leads to a read of a local that is no parameter without a write of that local
    (`Routine.Definite`). -/

namespace ScriptEngine

/-! ### Ways without a write -/

namespace Instr

/-- The locals that are written behind an instruction, if those in `w` are written before it. -/
def after (w : List Nat) : Instr → List Nat
  | storeLocal i => i.toNat :: w
  | _ => w

theorem subset_after (w : List Nat) (i : Instr) : w ⊆ i.after w := by
  unfold after
  split
  · exact List.subset_cons_self _ w
  · exact List.Subset.refl w

end Instr

namespace Routine

/-- A way leads from the beginning of a routine to an address, on which a local that is no parameter is not written. -/
inductive Unwritten (r : Routine) (x : Nat) : (pc : Nat) → Prop where
  | start (beyond : r.arity.toNat ≤ x) : Unwritten r x 0
  | step {pc next : Nat} {i : Instr} (way : Unwritten r x pc) (holds : r.Holds pc i)
      (other : ∀ j, i = .storeLocal j → j.toNat ≠ x) (exit : next ∈ i.exits pc) : Unwritten r x next

/-- No way leads to an instruction that reads a local without a write of that local. -/
def Definite (r : Routine) : Prop := ∀ pc j, r.Holds pc (.loadLocal j) → ¬ r.Unwritten j.toNat pc

end Routine

namespace Lowering

/-! ### Trees -/

namespace Locals

mutual

/-- For each instruction of an expression the locals that are written before it, if those in `w` are written before the
    first one. -/
def expr (w : List Nat) : Bound.Expr → List (List Nat)
  | .unit | .int _ | .float _ | .bool _ | .text _ | .load _ | .function _ | .imported _ => [w]
  | .both left right => expr w left ++ w :: (expr w right ++ [w, w, w, w])
  | .either left right => expr w left ++ w :: w :: w :: (expr w right ++ [w, w, w, w])
  | .operate _ left right | .index left right => expr w left ++ (expr w right ++ [w])
  | .unary _ operand => expr w operand ++ [w]
  | .call callee args => expr w callee ++ (exprs w args ++ [w])
  | .intrinsic _ args | .list args => exprs w args ++ [w]
  | .branch condition body otherwise => expr w condition ++ w :: (block w body ++ w :: block w otherwise)
  | .block b => block w b

def exprs (w : List Nat) : List Bound.Expr → List (List Nat)
  | [] => []
  | e :: es => expr w e ++ exprs w es

def stmt (w : List Nat) : Bound.Stmt → List (List Nat)
  | .store _ value _ | .eval value _ | .ret value _ => expr w value ++ [w]
  | .setIndex base position value _ => expr w base ++ (expr w position ++ (expr w value ++ [w]))
  | .loop condition body _ => expr w condition ++ w :: (block w body ++ [w, w])
  | .leave _ | .next _ => [w]

def stmts (w : List Nat) : List Bound.Stmt → List (List Nat)
  | [] => []
  | s :: ss => stmt w s ++ stmts (s.after w) ss

def tail (w : List Nat) : Bound.Tail → List (List Nat)
  | .nothing => [w]
  | .value e _ => expr w e

def block (w : List Nat) : Bound.Block → List (List Nat)
  | .mk body last => stmts w body ++ tail (body.foldl Bound.Stmt.after w) last

end

mutual

/-- There is one list for each instruction. -/
theorem length_expr (w : List Nat) : (e : Bound.Expr) → (expr w e).length = Size.expr e
  | .unit | .int _ | .float _ | .bool _ | .text _ | .load _ | .function _ | .imported _ => rfl
  | .both left right | .either left right => by
    simp [expr, Size.expr, length_expr w left, length_expr w right]
    omega
  | .operate _ left right | .index left right => by
    simp [expr, Size.expr, length_expr w left, length_expr w right, Nat.add_assoc]
  | .unary _ operand => by simp [expr, Size.expr, length_expr w operand]
  | .call callee args => by simp [expr, Size.expr, length_expr w callee, length_exprs w args, Nat.add_assoc]
  | .intrinsic _ args | .list args => by simp [expr, Size.expr, length_exprs w args]
  | .branch condition body otherwise => by
    simp [expr, Size.expr, length_expr w condition, length_block w body, length_block w otherwise]
    omega
  | .block b => by rw [expr, Size.expr, length_block w b]

theorem length_exprs (w : List Nat) : (es : List Bound.Expr) → (exprs w es).length = Size.exprs es
  | [] => rfl
  | e :: es => by rw [exprs, Size.exprs, List.length_append, length_expr w e, length_exprs w es]

theorem length_stmt (w : List Nat) : (s : Bound.Stmt) → (stmt w s).length = Size.stmt s
  | .store _ value _ | .eval value _ | .ret value _ => by simp [stmt, Size.stmt, length_expr w value]
  | .setIndex base position value _ => by
    simp [stmt, Size.stmt, length_expr w base, length_expr w position, length_expr w value, Nat.add_assoc]
  | .loop condition body _ => by
    simp [stmt, Size.stmt, length_expr w condition, length_block w body]
    omega
  | .leave _ | .next _ => rfl

theorem length_stmts (w : List Nat) : (ss : List Bound.Stmt) → (stmts w ss).length = Size.stmts ss
  | [] => rfl
  | s :: ss => by rw [stmts, Size.stmts, List.length_append, length_stmt w s, length_stmts (s.after w) ss]

theorem length_tail (w : List Nat) : (t : Bound.Tail) → (tail w t).length = Size.tail t
  | .nothing => rfl
  | .value e _ => by rw [tail, Size.tail, length_expr w e]

theorem length_block (w : List Nat) : (b : Bound.Block) → (block w b).length = Size.block b
  | .mk body last => by
    rw [block, Size.block, List.length_append, length_stmts w body, length_tail (body.foldl Bound.Stmt.after w) last]

end

end Locals

/-! ### Routines -/

/-- At an address of a routine with these lists, no more locals are relied on than those in `w`. -/
def Relies (lists : List (List Nat)) (pc : Nat) (w : List Nat) : Prop := ∃ needed, lists[pc]? = some needed ∧ needed ⊆ w

/-- The lists of a part of a routine, which stands at `pc`. -/
def Notes (lists : List (List Nat)) (pc : Nat) (part : List (List Nat)) : Prop :=
  Along (fun a w => lists[a]? = some w) pc part

/-- Where the jumps out of the innermost loop arrive, no more locals are relied on. -/
def LoopRelies (lists : List (List Nat)) (loop : Option LoopTargets) (w : List Nat) : Prop :=
  ∀ targets, loop = some targets → Relies lists targets.start w ∧ Relies lists targets.exit w

/-- The instruction at `pc` reads only locals in `w`, and wherever control goes from it, no more are relied on than are
    written then. -/
def Feeds (r : Routine) (lists : List (List Nat)) (pc : Nat) (w : List Nat) : Prop :=
  ∀ i, r.Holds pc i → (∀ j, i = .loadLocal j → j.toNat ∈ w) ∧ ∀ next ∈ i.exits pc, Relies lists next (i.after w)

section
variable {r : Routine} {lists : List (List Nat)} {pc m : Nat} {w w' : List Nat}

theorem relies_of_note (h : lists[pc]? = some w) : Relies lists pc w := ⟨w, h, List.Subset.refl w⟩

theorem Relies.mono (h : Relies lists pc w) (hsub : w ⊆ w') : Relies lists pc w' := by
  obtain ⟨needed, hneeded, hw⟩ := h
  exact ⟨needed, hneeded, List.Subset.trans hw hsub⟩

theorem Relies.cast (h : Relies lists pc w) (hpc : pc = m) : Relies lists m w := hpc ▸ h

theorem Notes.head {part : List (List Nat)} (h : Notes lists pc (w :: part)) : Relies lists pc w := relies_of_note h.1

theorem LoopRelies.mono {loop : Option LoopTargets} (h : LoopRelies lists loop w) (hsub : w ⊆ w') :
    LoopRelies lists loop w' := fun targets htargets =>
  ⟨(h targets htargets).1.mono hsub, (h targets htargets).2.mono hsub⟩

/-- An instruction is what stands at its address. -/
theorem feeds_of_holds {i : Instr} (hi : r.Holds pc i) (hloads : ∀ j, i = .loadLocal j → j.toNat ∈ w)
    (hexits : ∀ next ∈ i.exits pc, Relies lists next (i.after w)) : Feeds r lists pc w := by
  intro j hj
  obtain rfl : i = j := Option.some.inj (hi.symm.trans hj)
  exact ⟨hloads, hexits⟩

/-- An instruction behind which control goes on, and which reads no local. -/
theorem feeds_next {i : Instr} (hi : r.Holds pc i) (exit : Relies lists (pc + 1) w)
    (hexits : i.exits pc = [pc + 1] := by rfl) (hloads : ∀ j, i ≠ .loadLocal j := by simp) : Feeds r lists pc w := by
  refine feeds_of_holds hi (fun j hj => absurd hj (hloads j)) fun next hnext => ?_
  rw [hexits, List.mem_singleton] at hnext
  exact hnext ▸ exit.mono (i.subset_after w)

theorem feeds_constant {c : Constant} (h : r.ConstantAt pc c) (exit : Relies lists (pc + 1) w) : Feeds r lists pc w := by
  obtain ⟨x, hx, -⟩ := h
  exact feeds_next hx exit

theorem feeds_load {place : Bound.Place} (h : r.LoadsAt pc place) (settled : Bound.Settled.expr w (.load place))
    (exit : Relies lists (pc + 1) w) : Feeds r lists pc w := by
  cases place with
  | frame index =>
    obtain ⟨i, hi, rfl⟩ := h
    refine feeds_of_holds hi (fun j hj => ?_) fun next hnext => ?_
    · cases hj
      exact settled
    · exact List.mem_singleton.mp hnext ▸ exit
  | slot record index =>
    obtain ⟨v, i, hi, -, -⟩ := h
    exact feeds_next hi exit

theorem feeds_store {place : Bound.Place} {value : Bound.Expr} {line : Nat} (h : r.StoresAt pc place)
    (exit : Relies lists (pc + 1) ((Bound.Stmt.store place value line).after w)) : Feeds r lists pc w := by
  cases place with
  | frame index =>
    obtain ⟨i, hi, rfl⟩ := h
    exact feeds_of_holds hi nofun fun next hnext => List.mem_singleton.mp hnext ▸ exit
  | slot record index =>
    obtain ⟨v, i, hi, -, -⟩ := h
    exact feeds_next hi exit

theorem feeds_ret (h : r.Holds pc .ret) : Feeds r lists pc w :=
  feeds_of_holds h nofun fun _ hnext => absurd hnext List.not_mem_nil

theorem feeds_jump {target : Nat} (h : r.JumpsAt pc target) (exit : Relies lists target w) : Feeds r lists pc w := by
  obtain ⟨x, hx, rfl⟩ := h
  exact feeds_of_holds hx nofun fun next hnext => List.mem_singleton.mp hnext ▸ exit

theorem feeds_branch {target : Nat} (h : r.BranchesAt pc target) (hnext : Relies lists (pc + 1) w)
    (htarget : Relies lists target w) : Feeds r lists pc w := by
  obtain ⟨x, hx, rfl⟩ := h
  refine feeds_of_holds hx nofun fun next hmem => ?_
  rcases List.mem_cons.mp hmem with rfl | hmem
  · exact hnext
  · exact List.mem_singleton.mp hmem ▸ htarget

end

section
variable {lists : List (List Nat)}

mutual

/-- An expression begins with what was written before it. -/
theorem expr_begins {pc : Nat} {w : List Nat} : (e : Bound.Expr) → Notes lists pc (Locals.expr w e) → Relies lists pc w
  | .unit, h | .int _, h | .float _, h | .bool _, h | .text _, h | .load _, h | .function _, h | .imported _, h => h.head
  | .both left _, h | .either left _, h | .operate _ left _, h | .index left _, h => expr_begins left (along_append.mp h).1
  | .unary _ operand, h => expr_begins operand (along_append.mp h).1
  | .call callee _, h => expr_begins callee (along_append.mp h).1
  | .intrinsic _ args, h | .list args, h => by
    obtain ⟨hargs, hlast, -⟩ := along_append.mp h
    rw [Locals.length_exprs] at hlast
    exact exprs_begin args hargs (relies_of_note hlast)
  | .branch condition _ _, h => expr_begins condition (along_append.mp h).1
  | .block b, h => block_begins b h

theorem exprs_begin {pc : Nat} {w : List Nat} : (es : List Bound.Expr) → Notes lists pc (Locals.exprs w es) →
    Relies lists (pc + Size.exprs es) w → Relies lists pc w
  | [], _, exit => exit
  | e :: _, h, _ => expr_begins e (along_append.mp h).1

theorem stmt_begins {pc : Nat} {w : List Nat} : (s : Bound.Stmt) → Notes lists pc (Locals.stmt w s) → Relies lists pc w
  | .store _ value _, h | .eval value _, h | .ret value _, h => expr_begins value (along_append.mp h).1
  | .setIndex base _ _ _, h => expr_begins base (along_append.mp h).1
  | .loop condition _ _, h => expr_begins condition (along_append.mp h).1
  | .leave _, h | .next _, h => h.head

theorem stmts_begin {pc : Nat} {w : List Nat} : (ss : List Bound.Stmt) → Notes lists pc (Locals.stmts w ss) →
    Relies lists (pc + Size.stmts ss) (ss.foldl Bound.Stmt.after w) → Relies lists pc w
  | [], _, exit => exit
  | s :: _, h, _ => stmt_begins s (along_append.mp h).1

theorem tail_begins {pc : Nat} {w : List Nat} : (t : Bound.Tail) → Notes lists pc (Locals.tail w t) → Relies lists pc w
  | .nothing, h => h.head
  | .value e _, h => expr_begins e h

theorem block_begins {pc : Nat} {w : List Nat} : (b : Bound.Block) → Notes lists pc (Locals.block w b) → Relies lists pc w
  | .mk body last, h => by
    obtain ⟨hbody, hlast⟩ := along_append.mp h
    rw [Locals.length_stmts] at hlast
    exact stmts_begin body hbody (tail_begins last hlast)

end

end

section
variable {r : Routine} {lists : List (List Nat)}

mutual

/-- The code of a settled expression reads what was written, if no more is relied on behind it than before it. -/
theorem expr_feeds {loop : Option LoopTargets} {pc : Nat} {w : List Nat} (loops : LoopRelies lists loop w) :
    (e : Bound.Expr) → Stands.expr r loop pc e → Bound.Settled.expr w e → Notes lists pc (Locals.expr w e) →
    Relies lists (pc + Size.expr e) w → Along (Feeds r lists) pc (Locals.expr w e)
  | .unit, h, _, _, exit => ⟨feeds_next h exit, trivial⟩
  | .bool _, h, _, _, exit => ⟨feeds_next h exit, trivial⟩
  | .int _, h, _, _, exit => ⟨feeds_constant h exit, trivial⟩
  | .float _, h, _, _, exit => ⟨feeds_constant h exit, trivial⟩
  | .text _, h, _, _, exit => ⟨feeds_constant h exit, trivial⟩
  | .load _, h, settled, _, exit => ⟨feeds_load h settled exit, trivial⟩
  | .function _, ⟨_, h, _⟩, _, _, exit => ⟨feeds_next h exit, trivial⟩
  | .imported _, ⟨_, h, _⟩, _, _, exit => ⟨feeds_next h exit, trivial⟩
  | .both left right, h, settled, notes, exit => by
    obtain ⟨hl, hbl, hr, hbr, htrue, hjump, hfalse⟩ := h
    simp only [Locals.expr, Notes, along_append, along_cons, along_nil, Locals.length_expr, and_true] at notes ⊢
    obtain ⟨nl, nbl, nr, nbr, ntrue, njump, nfalse⟩ := notes
    have exit := exit.cast (m := pc + Size.expr left + 1 + Size.expr right + 4) (by simp only [Size.expr]; omega)
    exact ⟨expr_feeds loops left hl settled.1 nl (relies_of_note nbl),
      feeds_branch hbl (expr_begins right nr) (relies_of_note nfalse),
      expr_feeds loops right hr settled.2 nr (relies_of_note nbr),
      feeds_branch hbr (relies_of_note ntrue) (relies_of_note nfalse), feeds_next htrue (relies_of_note njump),
      feeds_jump hjump exit, feeds_next hfalse exit⟩
  | .either left right, h, settled, notes, exit => by
    obtain ⟨hl, hbl, htrue₁, hjump₁, hr, hbr, htrue₂, hjump₂, hfalse⟩ := h
    simp only [Locals.expr, Notes, along_append, along_cons, along_nil, Locals.length_expr, and_true] at notes ⊢
    obtain ⟨nl, nbl, ntrue₁, njump₁, nr, nbr, ntrue₂, njump₂, nfalse⟩ := notes
    have exit := exit.cast (m := pc + Size.expr left + 3 + Size.expr right + 4) (by simp only [Size.expr]; omega)
    exact ⟨expr_feeds loops left hl settled.1 nl (relies_of_note nbl),
      feeds_branch hbl (relies_of_note ntrue₁) (expr_begins right nr), feeds_next htrue₁ (relies_of_note njump₁),
      feeds_jump hjump₁ exit, expr_feeds loops right hr settled.2 nr (relies_of_note nbr),
      feeds_branch hbr (relies_of_note ntrue₂) (relies_of_note nfalse), feeds_next htrue₂ (relies_of_note njump₂),
      feeds_jump hjump₂ exit, feeds_next hfalse exit⟩
  | .operate op left right, h, settled, notes, exit => by
    obtain ⟨hl, hr, hop⟩ := h
    simp only [Locals.expr, Notes, along_append, along_cons, along_nil, Locals.length_expr, and_true] at notes ⊢
    obtain ⟨nl, nr, nop⟩ := notes
    have exit := exit.cast (m := pc + Size.expr left + Size.expr right + 1) (by simp only [Size.expr]; omega)
    exact ⟨expr_feeds loops left hl settled.1 nl (expr_begins right nr),
      expr_feeds loops right hr settled.2 nr (relies_of_note nop), feeds_next hop exit⟩
  | .unary op operand, h, settled, notes, exit => by
    obtain ⟨he, hop⟩ := h
    simp only [Locals.expr, Notes, along_append, along_cons, along_nil, Locals.length_expr, and_true] at notes ⊢
    obtain ⟨ne, nop⟩ := notes
    have exit := exit.cast (m := pc + Size.expr operand + 1) (by simp only [Size.expr]; omega)
    refine ⟨expr_feeds loops operand he settled ne (relies_of_note nop), ?_⟩
    cases op with
    | neg => exact feeds_next (i := .neg) hop exit
    | not => exact feeds_next (i := .not) hop exit
  | .call callee args, h, settled, notes, exit => by
    obtain ⟨hc, ha, argc, hcall, -⟩ := h
    simp only [Locals.expr, Notes, along_append, along_cons, along_nil, Locals.length_expr, Locals.length_exprs,
      and_true] at notes ⊢
    obtain ⟨nc, na, ncall⟩ := notes
    have exit := exit.cast (m := pc + Size.expr callee + Size.exprs args + 1) (by simp only [Size.expr]; omega)
    exact ⟨expr_feeds loops callee hc settled.1 nc (exprs_begin args na (relies_of_note ncall)),
      exprs_feed loops args ha settled.2 na (relies_of_note ncall), feeds_next hcall exit⟩
  | .intrinsic i args, h, settled, notes, exit => by
    obtain ⟨ha, argc, hcall, -⟩ := h
    simp only [Locals.expr, Notes, along_append, along_cons, along_nil, Locals.length_exprs, and_true] at notes ⊢
    obtain ⟨na, ncall⟩ := notes
    have exit := exit.cast (m := pc + Size.exprs args + 1) (by simp only [Size.expr]; omega)
    exact ⟨exprs_feed loops args ha settled na (relies_of_note ncall), feeds_next hcall exit⟩
  | .index base position, h, settled, notes, exit => by
    obtain ⟨hb, hp, hindex⟩ := h
    simp only [Locals.expr, Notes, along_append, along_cons, along_nil, Locals.length_expr, and_true] at notes ⊢
    obtain ⟨nb, np, nindex⟩ := notes
    have exit := exit.cast (m := pc + Size.expr base + Size.expr position + 1) (by simp only [Size.expr]; omega)
    exact ⟨expr_feeds loops base hb settled.1 nb (expr_begins position np),
      expr_feeds loops position hp settled.2 np (relies_of_note nindex), feeds_next hindex exit⟩
  | .list items, h, settled, notes, exit => by
    obtain ⟨hi, count, hlist, -⟩ := h
    simp only [Locals.expr, Notes, along_append, along_cons, along_nil, Locals.length_exprs, and_true] at notes ⊢
    obtain ⟨ni, nlist⟩ := notes
    have exit := exit.cast (m := pc + Size.exprs items + 1) (by simp only [Size.expr]; omega)
    exact ⟨exprs_feed loops items hi settled ni (relies_of_note nlist), feeds_next hlist exit⟩
  | .branch condition body otherwise, h, settled, notes, exit => by
    obtain ⟨hc, hbranch, hb, hjump, ho⟩ := h
    simp only [Locals.expr, Notes, along_append, along_cons, Locals.length_expr, Locals.length_block] at notes ⊢
    obtain ⟨nc, nbranch, nb, njump, no⟩ := notes
    have exit := exit.cast (m := pc + Size.expr condition + 1 + Size.block body + 1 + Size.block otherwise)
      (by simp only [Size.expr]; omega)
    exact ⟨expr_feeds loops condition hc settled.1 nc (relies_of_note nbranch),
      feeds_branch hbranch (block_begins body nb) (block_begins otherwise no),
      block_feeds loops body hb settled.2.1 nb (relies_of_note njump), feeds_jump hjump exit,
      block_feeds loops otherwise ho settled.2.2 no exit⟩
  | .block b, h, settled, notes, exit => block_feeds loops b h settled notes exit

theorem exprs_feed {loop : Option LoopTargets} {pc : Nat} {w : List Nat} (loops : LoopRelies lists loop w) :
    (es : List Bound.Expr) → Stands.exprs r loop pc es → Bound.Settled.exprs w es →
    Notes lists pc (Locals.exprs w es) → Relies lists (pc + Size.exprs es) w →
    Along (Feeds r lists) pc (Locals.exprs w es)
  | [], _, _, _, _ => trivial
  | e :: es, ⟨he, hes⟩, settled, notes, exit => by
    simp only [Locals.exprs, Notes, along_append, Locals.length_expr] at notes ⊢
    obtain ⟨ne, nes⟩ := notes
    have exit := exit.cast (m := pc + Size.expr e + Size.exprs es) (by simp only [Size.exprs]; omega)
    exact ⟨expr_feeds loops e he settled.1 ne (exprs_begin es nes exit), exprs_feed loops es hes settled.2 nes exit⟩

theorem stmt_feeds {loop : Option LoopTargets} {pc : Nat} {w : List Nat} (loops : LoopRelies lists loop w) :
    (s : Bound.Stmt) → Stands.stmt r loop pc s → Bound.Settled.stmt w s → Notes lists pc (Locals.stmt w s) →
    Relies lists (pc + Size.stmt s) (s.after w) → Along (Feeds r lists) pc (Locals.stmt w s)
  | .store place value line, h, settled, notes, exit => by
    simp only [Locals.stmt, Notes, along_append, along_cons, along_nil, Locals.length_expr, and_true] at notes ⊢
    obtain ⟨nv, nstore⟩ := notes
    have exit := exit.cast (m := pc + Size.expr value + 1) (by simp only [Size.stmt]; omega)
    exact ⟨expr_feeds loops value h.1 settled nv (relies_of_note nstore), feeds_store h.2 exit⟩
  | .setIndex base position value _, h, settled, notes, exit => by
    obtain ⟨hb, hp, hv, hset⟩ := h
    simp only [Locals.stmt, Notes, along_append, along_cons, along_nil, Locals.length_expr, and_true] at notes ⊢
    obtain ⟨nb, np, nv, nset⟩ := notes
    have exit := exit.cast (m := pc + Size.expr base + Size.expr position + Size.expr value + 1)
      (by simp only [Size.stmt]; omega)
    exact ⟨expr_feeds loops base hb settled.1 nb (expr_begins position np),
      expr_feeds loops position hp settled.2.1 np (expr_begins value nv),
      expr_feeds loops value hv settled.2.2 nv (relies_of_note nset), feeds_next hset exit⟩
  | .eval e _, h, settled, notes, exit => by
    simp only [Locals.stmt, Notes, along_append, along_cons, along_nil, Locals.length_expr, and_true] at notes ⊢
    obtain ⟨ne, npop⟩ := notes
    have exit := exit.cast (m := pc + Size.expr e + 1) (by simp only [Size.stmt]; omega)
    exact ⟨expr_feeds loops e h.1 settled ne (relies_of_note npop), feeds_next h.2 exit⟩
  | .ret value _, h, settled, notes, _ => by
    simp only [Locals.stmt, Notes, along_append, along_cons, along_nil, Locals.length_expr, and_true] at notes ⊢
    obtain ⟨nv, nret⟩ := notes
    exact ⟨expr_feeds loops value h.1 settled nv (relies_of_note nret), feeds_ret h.2⟩
  | .loop condition body line, h, settled, notes, exit => by
    obtain ⟨hc, hbranch, hb, hpop, hjump⟩ := h
    -- Whatever the body writes, the next round begins with what was written before the loop.
    have again : Relies lists pc w := stmt_begins (.loop condition body line) notes
    simp only [Locals.stmt, Notes, along_append, along_cons, along_nil, Locals.length_expr, Locals.length_block,
      and_true] at notes ⊢
    obtain ⟨nc, nbranch, nb, npop, njump⟩ := notes
    have exit : Relies lists (pc + Size.expr condition + 1 + Size.block body + 2) w :=
      exit.cast (by simp only [Size.stmt]; omega)
    have inner : LoopRelies lists (some ⟨pc, pc + Size.expr condition + 1 + Size.block body + 2⟩) w := by
      intro targets htargets
      cases htargets
      exact ⟨again, exit⟩
    exact ⟨expr_feeds loops condition hc settled.1 nc (relies_of_note nbranch),
      feeds_branch hbranch (block_begins body nb) exit, block_feeds inner body hb settled.2 nb (relies_of_note npop),
      feeds_next hpop (relies_of_note njump), feeds_jump hjump again⟩
  | .leave _, ⟨targets, hloop, hjump⟩, _, _, _ => ⟨feeds_jump hjump (loops targets hloop).2, trivial⟩
  | .next _, ⟨targets, hloop, hjump⟩, _, _, _ => ⟨feeds_jump hjump (loops targets hloop).1, trivial⟩

/-- Each statement finds what the statements before it have written. -/
theorem stmts_feed {loop : Option LoopTargets} {pc : Nat} {w : List Nat} (loops : LoopRelies lists loop w) :
    (ss : List Bound.Stmt) → Stands.stmts r loop pc ss → Bound.Settled.stmts w ss → Notes lists pc (Locals.stmts w ss) →
    Relies lists (pc + Size.stmts ss) (ss.foldl Bound.Stmt.after w) → Along (Feeds r lists) pc (Locals.stmts w ss)
  | [], _, _, _, _ => trivial
  | s :: ss, ⟨hs, hss⟩, settled, notes, exit => by
    simp only [Locals.stmts, Notes, along_append, Locals.length_stmt] at notes ⊢
    obtain ⟨ns, nss⟩ := notes
    have exit := exit.cast (m := pc + Size.stmt s + Size.stmts ss) (by simp only [Size.stmts]; omega)
    exact ⟨stmt_feeds loops s hs settled.1 ns (stmts_begin ss nss exit),
      stmts_feed (loops.mono (s.subset_after w)) ss hss settled.2 nss exit⟩

theorem tail_feeds {loop : Option LoopTargets} {pc : Nat} {w : List Nat} (loops : LoopRelies lists loop w) :
    (t : Bound.Tail) → Stands.tail r loop pc t → Bound.Settled.tail w t → Notes lists pc (Locals.tail w t) →
    Relies lists (pc + Size.tail t) w → Along (Feeds r lists) pc (Locals.tail w t)
  | .nothing, h, _, _, exit => ⟨feeds_next h exit, trivial⟩
  | .value e _, h, settled, notes, exit => expr_feeds loops e h settled notes exit

theorem block_feeds {loop : Option LoopTargets} {pc : Nat} {w : List Nat} (loops : LoopRelies lists loop w) :
    (b : Bound.Block) → Stands.block r loop pc b → Bound.Settled.block w b → Notes lists pc (Locals.block w b) →
    Relies lists (pc + Size.block b) w → Along (Feeds r lists) pc (Locals.block w b)
  | .mk body last, ⟨hbody, hlast⟩, settled, notes, exit => by
    simp only [Locals.block, Notes, along_append, Locals.length_stmts] at notes ⊢
    obtain ⟨nbody, nlast⟩ := notes
    have more := Bound.Stmt.subset_afterAll w body
    have exit := (exit.mono more).cast (m := pc + Size.stmts body + Size.tail last) (by simp only [Size.block]; omega)
    exact ⟨stmts_feed loops body hbody settled.1 nbody (tail_begins last nlast),
      tail_feeds (loops.mono more) last hlast settled.2 nlast exit⟩

end

end

/-! ### Functions -/

namespace Locals

/-- The lists of a function: its parameters are written from the beginning. -/
def function (p : Bound.Program) (index : Nat) (f : Bound.Func) : List (List Nat) :=
  let w := List.range f.arity
  List.replicate (Size.opening p index) w ++ (block w f.body ++ [w])

end Locals

section
variable {r : Routine} {lists : List (List Nat)} {w : List Nat} {pc : Nat}

theorem stores_feed {record : Nat} {ss : List Bound.FunctionSlot} (h : Stands.stores r record pc ss)
    (notes : Notes lists pc (List.replicate (ss.length * 2) w)) (exit : Relies lists (pc + ss.length * 2) w) :
    Relies lists pc w ∧ Along (Feeds r lists) pc (List.replicate (ss.length * 2) w) := by
  induction ss generalizing pc with
  | nil => exact ⟨exit, trivial⟩
  | cons s ss ih =>
    obtain ⟨⟨f, hf, -⟩, ⟨v, i, hi, -, -⟩, hrest⟩ := h
    have size : (s :: ss).length * 2 = ss.length * 2 + 2 := by rw [List.length_cons, Nat.add_mul]
    rw [size] at notes exit ⊢
    obtain ⟨nload, nstore, nrest⟩ := notes
    have exit := exit.cast (m := pc + 2 + ss.length * 2) (by omega)
    obtain ⟨entry, feeds⟩ := ih hrest nrest exit
    exact ⟨relies_of_note nload, feeds_next hf (relies_of_note nstore), feeds_next hi entry, feeds⟩

/-- Every instruction reads what is on its list, and nothing but the parameters is relied on at the beginning. -/
structure Fed (r : Routine) (lists : List (List Nat)) : Prop where
  entry : Relies lists 0 (List.range r.arity.toNat)
  feeds : ∀ {pc : Nat} {w : List Nat}, lists[pc]? = some w → Feeds r lists pc w

theorem function_fed {p : Bound.Program} {index : Nat} {f : Bound.Func} (h : Stands.function r p index f)
    (settled : f.Settled) : Fed r (Locals.function p index f) := by
  obtain ⟨lists, hlists⟩ : ∃ lists, Locals.function p index f = lists := ⟨_, rfl⟩
  have all : Notes lists 0 (Locals.function p index f) := by
    rw [hlists, Notes, along_iff]
    intro k w hk
    rwa [Nat.zero_add]
  rw [hlists]
  rw [Locals.function, Notes, along_append, along_append, Nat.zero_add, List.length_replicate, Locals.length_block,
    along_cons] at all
  obtain ⟨nopening, nbody, nret, -⟩ := all
  have noLoop : LoopRelies lists none (List.range f.arity) := by
    intro targets h
    cases h
  have body := block_feeds noLoop f.body h.body settled nbody (relies_of_note nret)
  have start : Relies lists 0 (List.range f.arity) ∧
      Along (Feeds r lists) 0 (List.replicate (Size.opening p index) (List.range f.arity)) := by
    have begin := block_begins f.body nbody
    cases hopening : opening? p index with
    | none =>
      simp only [Size.opening, hopening] at begin ⊢
      exact ⟨begin, trivial⟩
    | some record =>
      obtain ⟨hopen, hstores⟩ := h.opening record hopening
      simp only [Size.opening, hopening, Option.isSome_some, if_true] at begin nopening ⊢
      obtain ⟨nopen, nstores⟩ := nopening
      obtain ⟨entry, feeds⟩ := stores_feed hstores nstores (begin.cast (Nat.add_comm _ _))
      exact ⟨relies_of_note nopen, feeds_next hopen entry, feeds⟩
  refine ⟨h.arity ▸ start.1, fun {pc w} hw => ?_⟩
  have feeds : Along (Feeds r lists) 0 (Locals.function p index f) := by
    rw [Locals.function, along_append, along_append, Nat.zero_add, List.length_replicate, Locals.length_block]
    exact ⟨start.2, body, feeds_ret h.last, trivial⟩
  rw [hlists] at feeds
  have fed := along_iff.mp feeds pc w hw
  rwa [Nat.zero_add] at fed

/-- Along a way on which a local is not written, it is on none of the lists. -/
theorem Fed.absent (fed : Fed r lists) {x : Nat} (way : r.Unwritten x pc) : ∃ w, lists[pc]? = some w ∧ x ∉ w := by
  induction way with
  | start beyond =>
    obtain ⟨w, hw, hsub⟩ := fed.entry
    exact ⟨w, hw, fun hx => Nat.not_lt.mpr beyond (List.mem_range.mp (hsub hx))⟩
  | @step pc next i _ holds other exit ih =>
    obtain ⟨w, hw, hx⟩ := ih
    obtain ⟨w', hw', hsub⟩ := (fed.feeds hw i holds).2 next exit
    refine ⟨w', hw', fun hx' => ?_⟩
    have hafter := hsub hx'
    unfold Instr.after at hafter
    split at hafter
    · rename_i j
      rcases List.mem_cons.mp hafter with rfl | hmem
      · exact other j rfl rfl
      · exact hx hmem
    · exact hx hafter

/-- The code of a settled function reads no local before it is written. -/
theorem function_definite {p : Bound.Program} {index : Nat} {f : Bound.Func} (h : Stands.function r p index f)
    (settled : f.Settled) : r.Definite := by
  intro pc j hload way
  have fed := function_fed h settled
  obtain ⟨w, hw, hj⟩ := fed.absent way
  exact hj ((fed.feeds hw _ hload).1 j rfl)

end

end Lowering
end ScriptEngine
