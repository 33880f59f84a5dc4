import ScriptEngine.Proofs.LoopControl
import ScriptEngine.Proofs.SessionRuns

/-! What a statement does to the operands that lie below it. Its code never takes one of them, and when control
    comes out behind it, the stack is as it was, but for the operands that the loop control of the statement
    left behind on the way. -/

namespace ScriptEngine

namespace Lowering

/-! ### Statements of a function -/

/-- A statement and where its code stands. -/
structure Spot where
  pc : Nat
  /-- The depth at which the innermost loop around the statement began. -/
  outer : Nat
  /-- The depth at which the statement begins. -/
  depth : Nat
  stmt : Bound.Stmt

namespace Spots

mutual

/-- The statements in an expression that stands at `pc`, at depth `d`, when the innermost loop began at `dl`. -/
def expr (dl d pc : Nat) : Bound.Expr → List Spot
  | .unit | .int _ | .float _ | .bool _ | .text _ | .load _ | .function _ | .imported _ => []
  | .both left right => expr dl d pc left ++ expr dl d (pc + Size.expr left + 1) right
  | .either left right => expr dl d pc left ++ expr dl d (pc + Size.expr left + 3) right
  | .operate _ left right => expr dl d pc left ++ expr dl (d + 1) (pc + Size.expr left) right
  | .unary _ operand => expr dl d pc operand
  | .call callee args => expr dl d pc callee ++ exprs dl (d + 1) (pc + Size.expr callee) args
  | .intrinsic _ args => exprs dl d pc args
  | .index base position => expr dl d pc base ++ expr dl (d + 1) (pc + Size.expr base) position
  | .list items => exprs dl d pc items
  | .branch condition body otherwise =>
    expr dl d pc condition ++ (block dl d (pc + Size.expr condition + 1) body ++
      block dl d (pc + Size.expr condition + 1 + Size.block body + 1) otherwise)
  | .block b => block dl d pc b

def exprs (dl d pc : Nat) : List Bound.Expr → List Spot
  | [] => []
  | e :: es => expr dl d pc e ++ exprs dl (d + 1) (pc + Size.expr e) es

/-- The statement itself, and the statements in it. -/
def stmt (dl d pc : Nat) (s : Bound.Stmt) : List Spot :=
  ⟨pc, dl, d, s⟩ ::
    match s with
    | .store _ value _ | .eval value _ | .ret value _ => expr dl d pc value
    | .setIndex base position value _ =>
      expr dl d pc base ++ (expr dl (d + 1) (pc + Size.expr base) position ++
        expr dl (d + 2) (pc + Size.expr base + Size.expr position) value)
    | .loop condition body _ => expr dl d pc condition ++ block d d (pc + Size.expr condition + 1) body
    | .leave _ | .next _ => []

def stmts (dl d pc : Nat) : List Bound.Stmt → List Spot
  | [] => []
  | s :: ss => stmt dl d pc s ++ stmts dl d (pc + Size.stmt s) ss

def tail (dl d pc : Nat) : Bound.Tail → List Spot
  | .nothing => []
  | .value e _ => expr dl d pc e

def block (dl d pc : Nat) : Bound.Block → List Spot
  | .mk body last => stmts dl d pc body ++ tail dl d (pc + Size.stmts body) last

end

/-- The statements of the function at a position of a unit. -/
def function (p : Bound.Program) (index : Nat) (f : Bound.Func) : List Spot := block 0 0 (Size.opening p index) f.body

end Spots

/-- The code of a statement takes only operands above the depth at which the statement begins, and the same
    depth is right behind it. -/
structure Framed (r : Routine) (sites : List Site) (spot : Spot) : Prop where
  marks : Marks sites spot.pc (Sites.stmt spot.outer spot.depth spot.stmt)
  flow : Along (Flow r sites spot.depth) spot.pc (Sites.stmt spot.outer spot.depth spot.stmt)
  exit : At sites (spot.pc + Size.stmt spot.stmt) spot.depth

section
variable {r : Routine} {sites : List Site} {spot : Spot}

theorem At.unique {pc d d' : Nat} (h : At sites pc d) (h' : At sites pc d') : d = d' := by
  obtain ⟨left, h⟩ := h
  obtain ⟨left', h'⟩ := h'
  rw [h] at h'
  cases h'
  rfl

theorem Framed.entry (h : Framed r sites spot) : At sites spot.pc spot.depth := stmt_entry spot.stmt h.marks

/-- Within the code of a statement every instruction leaves the operands below the statement alone. -/
theorem Framed.inside (h : Framed r sites spot) {pc : Nat} (hlo : spot.pc ≤ pc) (hhi : pc < spot.pc + Size.stmt spot.stmt) :
    ∃ s, sites[pc]? = some s ∧ Flow r sites spot.depth pc s := by
  obtain ⟨k, rfl⟩ := Nat.exists_eq_add_of_le hlo
  have hk : k < (Sites.stmt spot.outer spot.depth spot.stmt).length := by
    rw [Sites.length_stmt]
    omega
  have hs := List.getElem?_eq_getElem hk
  exact ⟨_, along_iff.mp h.marks k _ hs, along_iff.mp h.flow k _ hs⟩

end

mutual

/-- Every statement in an expression is framed. -/
theorem expr_framed {r : Routine} {sites : List Site} {loop : Option LoopTargets} {dl d pc : Nat}
    (loops : Loops sites loop dl) (hdl : dl ≤ d) : (e : Bound.Expr) → Stands.expr r loop pc e →
    Marks sites pc (Sites.expr dl d e) → At sites (pc + Size.expr e) (d + 1) →
    ∀ spot ∈ Spots.expr dl d pc e, Framed r sites spot
  | .unit, _, _, _ | .int _, _, _, _ | .float _, _, _, _ | .bool _, _, _, _ | .text _, _, _, _
  | .load _, _, _, _ | .function _, _, _, _ | .imported _, _, _, _ => fun _ h => nomatch h
  | .both left right, h, marks, _ => by
    obtain ⟨hl, -, hr, -⟩ := h
    simp only [Sites.expr, Marks, along_append, along_cons, Sites.length_expr] at marks
    obtain ⟨ml, mbl, mr, mbr, -⟩ := marks
    exact List.forall_mem_append.mpr ⟨expr_framed loops hdl left hl ml ⟨0, mbl⟩,
      expr_framed loops hdl right hr mr ⟨0, mbr⟩⟩
  | .either left right, h, marks, _ => by
    obtain ⟨hl, -, -, -, hr, -⟩ := h
    simp only [Sites.expr, Marks, along_append, along_cons, Sites.length_expr] at marks
    obtain ⟨ml, mbl, -, -, mr, mbr, -⟩ := marks
    exact List.forall_mem_append.mpr ⟨expr_framed loops hdl left hl ml ⟨0, mbl⟩,
      expr_framed loops hdl right hr mr ⟨0, mbr⟩⟩
  | .operate _ left right, h, marks, _ => by
    obtain ⟨hl, hr, -⟩ := h
    simp only [Sites.expr, Marks, along_append, along_cons, Sites.length_expr] at marks
    obtain ⟨ml, mr, mop, -⟩ := marks
    exact List.forall_mem_append.mpr ⟨expr_framed loops hdl left hl ml (expr_entry right mr),
      expr_framed loops (Nat.le_succ_of_le hdl) right hr mr ⟨0, mop⟩⟩
  | .unary _ operand, h, marks, _ => by
    simp only [Sites.expr, Marks, along_append, along_cons, Sites.length_expr] at marks
    exact expr_framed loops hdl operand h.1 marks.1 ⟨0, marks.2.1⟩
  | .call callee args, h, marks, _ => by
    obtain ⟨hc, ha, -⟩ := h
    simp only [Sites.expr, Marks, along_append, along_cons, Sites.length_expr, Sites.length_exprs] at marks
    obtain ⟨mc, ma, mcall, -⟩ := marks
    exact List.forall_mem_append.mpr ⟨expr_framed loops hdl callee hc mc (exprs_entry args ma ⟨0, mcall⟩),
      exprs_framed loops (Nat.le_succ_of_le hdl) args ha ma ⟨0, mcall⟩⟩
  | .intrinsic _ args, h, marks, _ | .list args, h, marks, _ => by
    simp only [Sites.expr, Marks, along_append, along_cons, Sites.length_exprs] at marks
    exact exprs_framed loops hdl args h.1 marks.1 ⟨0, marks.2.1⟩
  | .index base position, h, marks, _ => by
    obtain ⟨hb, hp, -⟩ := h
    simp only [Sites.expr, Marks, along_append, along_cons, Sites.length_expr] at marks
    obtain ⟨mb, mp, mindex, -⟩ := marks
    exact List.forall_mem_append.mpr ⟨expr_framed loops hdl base hb mb (expr_entry position mp),
      expr_framed loops (Nat.le_succ_of_le hdl) position hp mp ⟨0, mindex⟩⟩
  | .branch condition body otherwise, h, marks, exit => by
    obtain ⟨hc, -, hb, -, ho⟩ := h
    simp only [Sites.expr, Marks, along_append, along_cons, Sites.length_expr, Sites.length_block] at marks
    obtain ⟨mc, mbranch, mb, mjump, mo⟩ := marks
    have exit := exit.cast (m := pc + Size.expr condition + 1 + Size.block body + 1 + Size.block otherwise)
      (by simp only [Size.expr]; omega)
    exact List.forall_mem_append.mpr ⟨expr_framed loops hdl condition hc mc ⟨0, mbranch⟩,
      List.forall_mem_append.mpr ⟨block_framed loops hdl body hb mb ⟨0, mjump⟩,
        block_framed loops hdl otherwise ho mo exit⟩⟩
  | .block b, h, marks, exit => block_framed loops hdl b h marks exit

theorem exprs_framed {r : Routine} {sites : List Site} {loop : Option LoopTargets} {dl d pc : Nat}
    (loops : Loops sites loop dl) (hdl : dl ≤ d) : (es : List Bound.Expr) → Stands.exprs r loop pc es →
    Marks sites pc (Sites.exprs dl d es) → At sites (pc + Size.exprs es) (d + es.length) →
    ∀ spot ∈ Spots.exprs dl d pc es, Framed r sites spot
  | [], _, _, _ => fun _ h => nomatch h
  | e :: es, ⟨he, hes⟩, marks, exit => by
    simp only [Sites.exprs, Marks, along_append, Sites.length_expr] at marks
    obtain ⟨me, mes⟩ := marks
    have exit : At sites (pc + Size.expr e + Size.exprs es) (d + 1 + es.length) := by
      rw [Nat.add_assoc, Nat.add_assoc, Nat.add_comm 1]
      exact exit
    exact List.forall_mem_append.mpr ⟨expr_framed loops hdl e he me (exprs_entry es mes exit),
      exprs_framed loops (Nat.le_succ_of_le hdl) es hes mes exit⟩

theorem stmt_framed {r : Routine} {sites : List Site} {loop : Option LoopTargets} {dl d pc : Nat}
    (loops : Loops sites loop dl) (hdl : dl ≤ d) : (s : Bound.Stmt) → Stands.stmt r loop pc s →
    Marks sites pc (Sites.stmt dl d s) → At sites (pc + Size.stmt s) d → ∀ spot ∈ Spots.stmt dl d pc s, Framed r sites spot
  | .store _ value _, h, marks, exit | .eval value _, h, marks, exit | .ret value _, h, marks, exit => by
    refine List.forall_mem_cons.mpr ⟨⟨marks, stmt_flows loops hdl _ h marks exit, exit⟩, ?_⟩
    simp only [Sites.stmt, Marks, along_append, along_cons, Sites.length_expr] at marks
    exact expr_framed loops hdl value h.1 marks.1 ⟨0, marks.2.1⟩
  | .setIndex base position value line, h, marks, exit => by
    refine List.forall_mem_cons.mpr ⟨⟨marks, stmt_flows loops hdl _ h marks exit, exit⟩, ?_⟩
    obtain ⟨hb, hp, hv, -⟩ := h
    simp only [Sites.stmt, Marks, along_append, along_cons, Sites.length_expr] at marks
    obtain ⟨mb, mp, mv, mset, -⟩ := marks
    exact List.forall_mem_append.mpr ⟨expr_framed loops hdl base hb mb (expr_entry position mp),
      List.forall_mem_append.mpr ⟨expr_framed loops (Nat.le_succ_of_le hdl) position hp mp (expr_entry value mv),
        expr_framed loops (Nat.le_add_right_of_le hdl) value hv mv ⟨0, mset⟩⟩⟩
  | .loop condition body line, h, marks, exit => by
    refine List.forall_mem_cons.mpr ⟨⟨marks, stmt_flows loops hdl _ h marks exit, exit⟩, ?_⟩
    have again : At sites pc d := stmt_entry (.loop condition body 0) marks
    obtain ⟨hc, -, hb, -, -⟩ := h
    simp only [Sites.stmt, Marks, along_append, along_cons, Sites.length_expr, Sites.length_block] at marks
    obtain ⟨mc, mbranch, mb, mpop, -⟩ := marks
    have exit := exit.cast (m := pc + Size.expr condition + 1 + Size.block body + 2) (by simp only [Size.stmt]; omega)
    have inner : Loops sites (some ⟨pc, pc + Size.expr condition + 1 + Size.block body + 2⟩) d := by
      intro targets htargets
      cases htargets
      exact ⟨again, exit⟩
    exact List.forall_mem_append.mpr ⟨expr_framed loops hdl condition hc mc ⟨0, mbranch⟩,
      block_framed inner (Nat.le_refl d) body hb mb ⟨0, mpop⟩⟩
  | .leave line, h, marks, exit | .next line, h, marks, exit =>
    List.forall_mem_cons.mpr ⟨⟨marks, stmt_flows loops hdl _ h marks exit, exit⟩, fun _ h => nomatch h⟩

theorem stmts_framed {r : Routine} {sites : List Site} {loop : Option LoopTargets} {dl d pc : Nat}
    (loops : Loops sites loop dl) (hdl : dl ≤ d) : (ss : List Bound.Stmt) → Stands.stmts r loop pc ss →
    Marks sites pc (Sites.stmts dl d ss) → At sites (pc + Size.stmts ss) d →
    ∀ spot ∈ Spots.stmts dl d pc ss, Framed r sites spot
  | [], _, _, _ => fun _ h => nomatch h
  | s :: ss, ⟨hs, hss⟩, marks, exit => by
    simp only [Sites.stmts, Marks, along_append, Sites.length_stmt] at marks
    obtain ⟨ms, mss⟩ := marks
    have exit := exit.cast (m := pc + Size.stmt s + Size.stmts ss) (by simp only [Size.stmts]; omega)
    exact List.forall_mem_append.mpr ⟨stmt_framed loops hdl s hs ms (stmts_entry ss mss exit),
      stmts_framed loops hdl ss hss mss exit⟩

theorem tail_framed {r : Routine} {sites : List Site} {loop : Option LoopTargets} {dl d pc : Nat}
    (loops : Loops sites loop dl) (hdl : dl ≤ d) : (t : Bound.Tail) → Stands.tail r loop pc t →
    Marks sites pc (Sites.tail dl d t) → At sites (pc + Size.tail t) (d + 1) →
    ∀ spot ∈ Spots.tail dl d pc t, Framed r sites spot
  | .nothing, _, _, _ => fun _ h => nomatch h
  | .value e _, h, marks, exit => expr_framed loops hdl e h marks exit

theorem block_framed {r : Routine} {sites : List Site} {loop : Option LoopTargets} {dl d pc : Nat}
    (loops : Loops sites loop dl) (hdl : dl ≤ d) : (b : Bound.Block) → Stands.block r loop pc b →
    Marks sites pc (Sites.block dl d b) → At sites (pc + Size.block b) (d + 1) →
    ∀ spot ∈ Spots.block dl d pc b, Framed r sites spot
  | .mk body last, ⟨hbody, hlast⟩, marks, exit => by
    simp only [Sites.block, Marks, along_append, Sites.length_stmts] at marks
    obtain ⟨mbody, mlast⟩ := marks
    have exit := exit.cast (m := pc + Size.stmts body + Size.tail last) (by simp only [Size.block]; omega)
    exact List.forall_mem_append.mpr ⟨stmts_framed loops hdl body hbody mbody (tail_entry last mlast),
      tail_framed loops hdl last hlast mlast exit⟩

end

/-- Every statement of a function is framed. -/
theorem function_framed {r : Routine} {p : Bound.Program} {index : Nat} {f : Bound.Func}
    (h : Stands.function r p index f) : ∀ spot ∈ Spots.function p index f, Framed r (Sites.function p index f) spot := by
  have all := marks_self (Sites.function p index f)
  rw [Marks, Sites.function, along_append, along_append, Nat.zero_add, Sites.length_opening, Sites.length_block,
    along_cons, ← Sites.function] at all
  obtain ⟨-, mbody, mret, -⟩ := all
  have noLoop : Loops (Sites.function p index f) none 0 := by
    rintro _ ⟨⟩
  exact block_framed noLoop (Nat.le_refl 0) f.body h.body mbody ⟨0, mret⟩

end Lowering

namespace Machine
open Lowering

/-! ### Runs through a statement -/

/-- The operands that the next instruction leaves behind, if it is one of the function below which `level`
    functions wait. -/
def leftBehind (sites : List Site) (level : Nat) (m : Machine) : Nat :=
  if m.callers.height = level then ((sites[m.frame.pc]?).map Site.left).getD 0 else 0

/-- A run within the code from `lo` up to `hi` of the function below which `level` functions wait, and within
    the functions that it calls from there. The operands that the function leaves behind are counted. -/
inductive Passes (env : Env) (sites : List Site) (level lo hi : Nat) : Nat → Machine → Machine → Prop where
  | refl (m : Machine) : Passes env sites level lo hi 0 m m
  | step {n : Nat} {m m' m'' : Machine} (inside : m.callers.height = level → lo ≤ m.frame.pc ∧ m.frame.pc < hi)
      (first : Next env m m') (stays : level ≤ m'.callers.height) (rest : Passes env sites level lo hi n m' m'') :
      Passes env sites level lo hi (m.leftBehind sites level + n) m m''

/-- The function runs, and what it has pushed lies above what was there before: as much as the depths say, and
    what was left behind. -/
structure Above (sites : List Site) (r : Routine) (callers : List Frame) (d : Nat) (below : List Value) (n : Nat)
    (m : Machine) : Prop where
  callers : m.callers.items = callers
  routine : m.frame.routine = r
  stack : ∃ upper depth, m.stack.items = upper ++ below ∧ At sites m.frame.pc depth ∧ upper.length + d = depth + n

/-- The function waits for one that it called, which started right above what the function had pushed. -/
structure Beyond (sites : List Site) (r : Routine) (callers : List Frame) (d : Nat) (below : List Value) (n : Nat)
    (m : Machine) : Prop where
  waits : ∃ others f upper above depth, m.callers.items = others ++ f :: callers ∧ f.routine = r ∧
    (m.frame.base :: others.map Frame.base).getLast? = some (upper ++ below).length ∧
    m.stack.items = above ++ (upper ++ below) ∧ At sites f.pc depth ∧ upper.length + 1 + d = depth + n

section
variable {env : Env} {sites : List Site} {callers : List Frame} {below : List Value} {n : Nat} {m m' : Machine}
  {spot : Spot} {r : Routine}

/-- The functions that wait above a frame start above it. -/
theorem waits_last_le {p : Program} {others rest : List Frame} {base bottom : Nat}
    (h : Waits p base (others ++ rest)) (hlast : (base :: others.map Frame.base).getLast? = some bottom) :
    bottom ≤ base := by
  induction others generalizing base with
  | nil =>
    cases hlast
    exact Nat.le_refl _
  | cons f others ih =>
    obtain ⟨-, -, hbase, h⟩ := h
    rw [List.map_cons, List.getLast?_cons_cons] at hlast
    exact Nat.le_trans (ih h hlast) hbase

theorem Enters.stack {argc : Nat} (enters : Enters env m argc m') : m'.stack.items = m.stack.items.drop (argc + 1) := by
  obtain ⟨args, c, code, routine, rfl, hitems, -⟩ := enters.frame
  rw [hitems, ← List.drop_drop, List.drop_left]
  rfl

theorem Above.next (h : Above sites r callers spot.depth below n m) (framed : Framed r sites spot)
    (hlo : spot.pc ≤ m.frame.pc) (hhi : m.frame.pc < spot.pc + Size.stmt spot.stmt) (first : Next env m m')
    (stays : callers.length ≤ m'.callers.height) :
    Above sites r callers spot.depth below (n + m.leftBehind sites callers.length) m' ∨
      Beyond sites r callers spot.depth below (n + m.leftBehind sites callers.length) m' := by
  obtain ⟨hcallers, rfl, upper, depth, hstack, ⟨left, hat⟩, hcount⟩ := h
  obtain ⟨s, hs, flow⟩ := framed.inside hlo hhi
  obtain rfl : s = ⟨depth, left⟩ := Option.some.inj (hs.symm.trans hat)
  have hleft : m.leftBehind sites callers.length = left := by
    rw [leftBehind, m.callers.height_eq, hcallers, if_pos rfl, hat]
    rfl
  rw [hleft]
  obtain ⟨i, hi, moves | ⟨argc, rfl, enters⟩ | ⟨rfl, leaves⟩⟩ := next_inv first
  · obtain ⟨hpops, exits⟩ := flow i hi
    obtain ⟨pc, locals, hframe, hpc, -⟩ := moves.frame
    obtain ⟨depth', hat', hdepth⟩ := exits pc hpc
    obtain ⟨pushed, hpushed, hstack'⟩ := moves.stack
    simp only at hpops hdepth
    refine .inl ⟨moves.callers ▸ hcallers, by rw [hframe], pushed ++ upper.drop i.pops, depth', ?_, ?_, ?_⟩
    · rw [hstack', hstack, List.drop_append_of_le_length (by omega), List.append_assoc]
    · rw [hframe]
      exact hat'
    · rw [List.length_append, List.length_drop, hpushed]
      omega
  · obtain ⟨hpops, exits⟩ := flow _ hi
    obtain ⟨depth', hat', hdepth⟩ := exits (m.frame.pc + 1) (.head _)
    obtain ⟨args, c, code, routine, -, -, -, -, -, hframe⟩ := enters.frame
    simp only [Instr.pops, Instr.pushes] at hpops hdepth
    have hrest : m'.stack.items = upper.drop (argc.toNat + 1) ++ below := by
      rw [enters.stack, hstack, List.drop_append_of_le_length (by omega)]
    refine .inr ⟨[], { m.frame with pc := m.frame.pc + 1 }, upper.drop (argc.toNat + 1), [], depth',
      enters.callers.trans (hcallers ▸ rfl), rfl, ?_, hrest, hat', ?_⟩
    · rw [hframe, hrest]
      rfl
    · rw [List.length_drop]
      omega
  · -- A return would go below the function.
    have hlength := congrArg List.length leaves.callers
    rw [hcallers, List.length_cons, ← m'.callers.height_eq] at hlength
    omega

theorem Beyond.next (h : Beyond sites r callers spot.depth below n m) (hm : m.Sound env.program) (first : Next env m m') :
    m.leftBehind sites callers.length = 0 ∧
      (Above sites r callers spot.depth below n m' ∨ Beyond sites r callers spot.depth below n m') := by
  obtain ⟨others, f, upper, above, depth, hcallers, hr, hlast, hstack, hat, hcount⟩ := h
  have hleft : m.leftBehind sites callers.length = 0 := by
    rw [leftBehind, m.callers.height_eq, hcallers, if_neg]
    rw [List.length_append, List.length_cons]
    omega
  refine ⟨hleft, ?_⟩
  have waits := hm.waits
  rw [hcallers] at waits
  have hbase := waits_last_le waits hlast
  -- Whatever runs above the function takes operands of its own only, so the part below stays.
  obtain ⟨i, hi, moves | ⟨argc, rfl, enters⟩ | ⟨rfl, leaves⟩⟩ := next_inv first
  · have room := hm.room hi
    rw [hstack, List.length_append] at room
    obtain ⟨pc, locals, hframe, -, -⟩ := moves.frame
    obtain ⟨pushed, -, hstack'⟩ := moves.stack
    refine .inr ⟨others, f, upper, pushed ++ above.drop i.pops, depth, moves.callers ▸ hcallers, hr, ?_, ?_, hat, hcount⟩
    · rw [hframe]
      exact hlast
    · rw [hstack', hstack, List.drop_append_of_le_length (by omega), List.append_assoc]
  · have room := hm.room hi
    rw [hstack, List.length_append, Instr.pops] at room
    refine .inr ⟨{ m.frame with pc := m.frame.pc + 1 } :: others, f, upper, above.drop (argc.toNat + 1), depth,
      enters.callers.trans (hcallers ▸ rfl), hr, ?_, ?_, hat, hcount⟩
    · rw [List.map_cons, List.getLast?_cons_cons]
      exact hlast
    · rw [enters.stack, hstack, List.drop_append_of_le_length (by omega)]
  · have room := hm.room hi
    obtain ⟨v, rest, hitems, hstack'⟩ := leaves.stack
    rw [hstack, List.length_append, Instr.pops] at room
    -- The function that returns has its value above what was pushed before it was called.
    obtain ⟨above', habove⟩ : ∃ above', rest = above' ++ (upper ++ below) := by
      cases above with
      | nil => simp only [List.length_nil] at room; omega
      | cons w above' =>
        rw [hstack] at hitems
        exact ⟨above', (List.cons_eq_cons.mp hitems).2.symm⟩
    have hcallers' := leaves.callers.symm.trans hcallers
    cases others with
    | nil =>
      obtain ⟨rfl, hrest⟩ := List.cons_eq_cons.mp hcallers'
      refine .inl ⟨hrest, hr, v :: upper, depth, ?_, hat, ?_⟩
      · simp only [List.map_nil, List.getLast?_singleton, Option.some.injEq] at hlast
        have hcut : (above' ++ (upper ++ below)).length - (upper ++ below).length = above'.length := by simp
        rw [hstack', habove, hlast, hcut, List.drop_left]
        rfl
      · rw [List.length_cons]
        omega
    | cons g others =>
      obtain ⟨rfl, hrest⟩ := List.cons_eq_cons.mp hcallers'
      rw [List.map_cons, List.getLast?_cons_cons] at hlast
      refine .inr ⟨others, f, upper, v :: above'.drop (rest.length - m.frame.base), depth, hrest, hr, hlast, ?_, hat, hcount⟩
      rw [hstack', List.cons_append, ← List.drop_append_of_le_length, ← habove]
      rw [habove, List.length_append]
      omega

theorem Passes.steps {level lo hi : Nat} (passes : Passes env sites level lo hi n m m') : ∃ k, Steps env k m m' := by
  induction passes with
  | refl m => exact ⟨0, .refl m⟩
  | step inside first stays rest ih =>
    obtain ⟨k, steps⟩ := ih
    exact ⟨k + 1, .step first steps⟩

/-- A run through the code of a statement leaves what was on the stack, with the operands on top that were left
    behind. -/
theorem Passes.stack (passes : Passes env sites callers.length spot.pc (spot.pc + Size.stmt spot.stmt) n m m')
    (hp : env.program.Sound) (hm : m.Sound env.program) (framed : Framed r sites spot)
    (hback : m'.callers.height = callers.length) {k : Nat}
    (h : Above sites r callers spot.depth below k m ∨ Beyond sites r callers spot.depth below k m) :
    Above sites r callers spot.depth below (k + n) m' := by
  induction passes generalizing k with
  | refl m =>
    rcases h with h | h
    · exact h
    · obtain ⟨others, f, -, -, -, hcallers, -⟩ := h.waits
      rw [m.callers.height_eq, hcallers, List.length_append, List.length_cons] at hback
      omega
  | @step n m m₁ m' inside first stays rest ih =>
    have hm₁ := hm.next hp first
    rw [← Nat.add_assoc]
    refine ih hm₁ hback ?_
    rcases h with h | h
    · have hlevel : m.callers.height = callers.length := by rw [m.callers.height_eq, h.callers]
      exact h.next framed (inside hlevel).1 (inside hlevel).2 first stays
    · obtain ⟨hleft, h⟩ := h.next hm first
      rw [hleft]
      exact h

/-- Where no instruction leaves an operand behind, none is counted. -/
theorem Passes.clear {level lo hi : Nat} (passes : Passes env sites level lo hi n m m') (clear : Sites.Clear sites) :
    n = 0 := by
  induction passes with
  | refl m => rfl
  | @step n m m₁ m' inside first stays rest ih =>
    have hleft : m.leftBehind sites level = 0 := by
      unfold leftBehind
      split
      · cases hs : sites[m.frame.pc]? with
        | none => rfl
        | some s => exact clear s (List.mem_of_getElem? hs)
      · rfl
    rw [hleft, ih]

end

/-- Follow a run through code until it comes out at the end of the code. -/
def passes? (env : Env) (sites : List Site) (level lo hi : Nat) : Nat → Machine → Option (Nat × Machine)
  | 0, _ => none
  | fuel + 1, m =>
    if m.callers.height = level ∧ m.frame.pc = hi then some (0, m)
    else if m.callers.height = level ∧ ¬(lo ≤ m.frame.pc ∧ m.frame.pc < hi) then none
    else do
      let m' ← (step env m).next?
      if level ≤ m'.callers.height then
        let (n, m'') ← passes? env sites level lo hi fuel m'
        return (m.leftBehind sites level + n, m'')
      else none

theorem passes?_passes {env : Env} {sites : List Site} {level lo hi fuel n : Nat} {m m' : Machine}
    (h : passes? env sites level lo hi fuel m = some (n, m')) :
    Passes env sites level lo hi n m m' ∧ m'.callers.height = level ∧ m'.frame.pc = hi := by
  induction fuel generalizing m n with
  | zero => cases h
  | succ fuel ih =>
    rw [passes?] at h
    split at h
    · rename_i hend
      cases h
      exact ⟨.refl _, hend⟩
    · split at h
      · cases h
      · rename_i hinside
        obtain ⟨m₁, hnext, h⟩ := Option.bind_eq_some_iff.mp h
        split at h
        · rename_i hstays
          obtain ⟨⟨k, m₂⟩, hrest, h⟩ := Option.bind_eq_some_iff.mp h
          cases h
          obtain ⟨passes, hend⟩ := ih hrest
          exact ⟨.step (fun hlevel => by simpa [hlevel] using hinside) hnext hstays passes, hend⟩
        · cases h

end Machine

namespace Session
open Lowering

variable {s : Session} {cache : Cache}

/-- What a statement does to the stack. When control has gone through the code of a statement and comes out
    behind it in the same call, the stack is as it was, with the operands on top that loop control in the
    statement left behind. So the stack is unchanged exactly if nothing was left behind, and in a tidy function
    nothing is. -/
theorem Run.stack_after_statement {options : SessionOptions} {reports : List Report}
    (run : Run (fun _ => True) options reports s cache) {source : String} {env : Machine.Env} {m m' : Machine}
    (visits : s.Visits cache source env m) {u : ScriptUnit} {image : Image} (himage : u.image = .ok image)
    (hcode : m.frame.code.functions = image.functions) {f : Bound.Func}
    (hf : u.program.functions[m.frame.callee.index]? = some f) {spot : Spot}
    (hspot : spot ∈ Spots.function u.program m.frame.callee.index f) (henter : m.frame.pc = spot.pc) {n : Nat}
    (passes : Machine.Passes env (Sites.function u.program m.frame.callee.index f) m.callers.height spot.pc
      (spot.pc + Size.stmt spot.stmt) n m m') (hback : m'.callers.height = m.callers.height)
    (hexit : m'.frame.pc = spot.pc + Size.stmt spot.stmt) :
    (∃ left, left.length = n ∧ m'.stack.items = left ++ m.stack.items) ∧ (m'.stack = m.stack ↔ n = 0) ∧
      (Bound.Tidy.block false f.body = true → n = 0) := by
  obtain ⟨program, machine⟩ := visits.sound run.sound.1
  have hroutine : image.functions[m.frame.callee.index]? = some m.frame.routine := hcode ▸ machine.frame.routine
  have stands := (image_emitted himage).stands.function hf hroutine
  have framed := function_framed stands spot hspot
  obtain ⟨left, hlength, hstack⟩ : ∃ left, left.length = n ∧ m'.stack.items = left ++ m.stack.items := by
    rw [m.callers.height_eq] at passes hback
    have entry := framed.entry
    rw [← henter] at entry
    have start : Machine.Above _ m.frame.routine m.callers.items spot.depth m.stack.items 0 m :=
      ⟨rfl, rfl, [], spot.depth, rfl, entry, Nat.zero_add _⟩
    have above := passes.stack program machine framed hback (.inl start)
    obtain ⟨left, depth, hstack, hat, hcount⟩ := above.stack
    rw [hexit] at hat
    have hdepth := hat.unique framed.exit
    exact ⟨left, by omega, hstack⟩
  refine ⟨⟨left, hlength, hstack⟩, ⟨fun hsame => ?_, fun hzero => Stack.ext ?_⟩, fun tidy => ?_⟩
  · rw [hsame] at hstack
    have hnil := List.self_eq_append_left.mp hstack
    rw [← hlength, hnil]
    rfl
  · rw [hzero, List.length_eq_zero_iff] at hlength
    rw [hstack, hlength]
    rfl
  · exact passes.clear (Sites.function_clear _ tidy)

/-- Go through the code of the statement that the entry routine of a submission comes to after some steps. -/
def cross? (s : Session) (cache : Cache) (source : String) (steps fuel : Nat) :
    Option (Machine.Env × Machine × Machine × Nat) := do
  let (env, start) ← s.next? cache source
  let m ← Machine.after? env steps start
  let refs ← cache.loaded
  let c ← (s.chain.compile source refs).toOption
  let image ← c.unit.image.toOption
  guard (m.frame.code.functions = image.functions)
  let f ← c.unit.program.functions[m.frame.callee.index]?
  let spot ← (Spots.function c.unit.program m.frame.callee.index f).find? fun spot => m.frame.pc = spot.pc
  let (n, m') ← Machine.passes? env (Sites.function c.unit.program m.frame.callee.index f) m.callers.height spot.pc
    (spot.pc + Size.stmt spot.stmt) fuel m
  return (env, m, m', n)

/-- A loop within the right side of a sum is left from within the right side of another sum. -/
def pendingSource : String := "10 + \x7b while true \x7b 1 + \x7b break; 2 \x7d; \x7d 5 \x7d"

/-- Going through that loop leaves one operand on the stack that was not there before. -/
theorem Run.stack_after_statement_small : ∃ reports s cache env m m' left, small = some (reports, s, cache) ∧
    s.Visits cache pendingSource env m ∧ (∃ k, Machine.Steps env k m m') ∧ left.length = 1 ∧
    m'.stack.items = left ++ m.stack.items ∧ m'.stack ≠ m.stack := by
  have computes : (small.bind fun made => (made.2.1.cross? made.2.2 pendingSource 2 20).filter
      fun crossed => crossed.2.2.2 = 1).isSome := by decide +kernel
  obtain ⟨⟨env, m, m', n⟩, h⟩ := Option.isSome_iff_exists.mp computes
  obtain ⟨⟨reports, s, cache⟩, hsmall, h⟩ := Option.bind_eq_some_iff.mp h
  obtain ⟨hcross, hn⟩ := Option.filter_eq_some_iff.mp h
  have hn : n = 1 := of_decide_eq_true hn
  obtain ⟨⟨env', start⟩, hnext, h⟩ := Option.bind_eq_some_iff.mp hcross
  obtain ⟨m₁, hafter, h⟩ := Option.bind_eq_some_iff.mp h
  obtain ⟨refs, hrefs, h⟩ := Option.bind_eq_some_iff.mp h
  obtain ⟨c, hc, h⟩ := Option.bind_eq_some_iff.mp h
  obtain ⟨image, himage, h⟩ := Option.bind_eq_some_iff.mp h
  obtain ⟨_, hcode, h⟩ := Option.bind_eq_some_iff.mp h
  obtain ⟨f, hf, h⟩ := Option.bind_eq_some_iff.mp h
  obtain ⟨spot, hspot, h⟩ := Option.bind_eq_some_iff.mp h
  obtain ⟨⟨k, m₂⟩, hpasses, h⟩ := Option.bind_eq_some_iff.mp h
  cases h
  obtain ⟨passes, hback, hexit⟩ := Machine.passes?_passes hpasses
  have visits := (next?_visits hnext).steps (Machine.after?_steps hafter)
  obtain ⟨⟨left, hlength, hstack⟩, hsame, -⟩ := Run.stack_after_statement
    (submitAll_run (fun _ _ => trivial) (.start ["lib"]) hsmall) visits
    (except_toOption_eq_some.mp himage) ((Option.guard_eq_some' _).mp hcode) hf (List.mem_of_find?_eq_some hspot)
    (by simpa using List.find?_some hspot) passes hback hexit
  refine ⟨reports, s, cache, env, m, m', left, hsmall, visits, passes.steps, hlength.trans hn, hstack, ?_⟩
  rw [Ne, hsame, hn]
  decide

end Session

end ScriptEngine
