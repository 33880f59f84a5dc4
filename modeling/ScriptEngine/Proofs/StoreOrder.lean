import ScriptEngine.Proofs.BindingRules
import ScriptEngine.Proofs.OperandDepth

/-! Where the code of a script assigns what may not be assigned again. Only the entry routine does, in the order of
    the slots, and no jump leads from behind such an instruction back to it or before it (`Ordered`). All other
    code is tame: it opens no record and assigns only what may be assigned (`Instr.Tame`). -/

namespace ScriptEngine

/-- An instruction that opens no record, assigns only what the rules allow, and goes on at `least` or behind. -/
structure Instr.Tame (rules : Bound.Rules) (least pc : Nat) (i : Instr) : Prop where
  opens : i ≠ .openRecord
  stores : ∀ w j, i = .storeSlot w j → rules.store (.slot w.toNat j.toNat)
  exits : ∀ next ∈ i.exits pc, least ≤ next

namespace Routine

/-- The instruction at an address is tame. -/
def TameAt (r : Routine) (rules : Bound.Rules) (least pc : Nat) : Prop := ∀ i, r.Holds pc i → i.Tame rules least pc

/-- No way leads from behind an address back to it. -/
def Final (r : Routine) (pc : Nat) : Prop := ∀ behind i, pc < behind → r.Holds behind i → ∀ next ∈ i.exits behind, pc < next

end Routine

namespace Lowering
open ScriptEngine.Bound

section
variable {r : Routine} {rules : Rules} {least pc : Nat}

theorem tame_of_holds {i : Instr} (h : r.Holds pc i) (hi : i.Tame rules least pc) : r.TameAt rules least pc := by
  intro j hj
  obtain rfl : i = j := Option.some.inj (h.symm.trans hj)
  exact hi

/-- An instruction behind which control goes on. -/
theorem tame_next {i : Instr} (h : r.Holds pc i) (hle : least ≤ pc) (hexits : i.exits pc = [pc + 1] := by rfl)
    (hopens : i ≠ .openRecord := by nofun) (hstores : ∀ w j, i ≠ .storeSlot w j := by nofun) :
    r.TameAt rules least pc := by
  refine tame_of_holds h ⟨hopens, fun w j hi => absurd hi (hstores w j), fun next hnext => ?_⟩
  rw [hexits, List.mem_singleton] at hnext
  rw [hnext]
  exact Nat.le_succ_of_le hle

theorem tame_ret (h : r.Holds pc .ret) : r.TameAt rules least pc :=
  tame_of_holds h ⟨nofun, nofun, fun _ hnext => absurd hnext List.not_mem_nil⟩

theorem tame_jump {target : Nat} (h : r.JumpsAt pc target) (hle : least ≤ target) : r.TameAt rules least pc := by
  obtain ⟨x, hx, rfl⟩ := h
  refine tame_of_holds hx ⟨nofun, nofun, fun next hnext => ?_⟩
  rw [List.mem_singleton.mp hnext]
  exact hle

theorem tame_branch {target : Nat} (h : r.BranchesAt pc target) (hpc : least ≤ pc) (hle : least ≤ target) :
    r.TameAt rules least pc := by
  obtain ⟨x, hx, rfl⟩ := h
  refine tame_of_holds hx ⟨nofun, nofun, fun next hnext => ?_⟩
  rcases List.mem_cons.mp hnext with rfl | hnext
  · exact Nat.le_succ_of_le hpc
  · rw [List.mem_singleton.mp hnext]
    exact hle

theorem tame_constant {c : Constant} (h : r.ConstantAt pc c) (hle : least ≤ pc) : r.TameAt rules least pc := by
  obtain ⟨x, hx, -⟩ := h
  exact tame_next hx hle

theorem tame_load {place : Place} (h : r.LoadsAt pc place) (hle : least ≤ pc) : r.TameAt rules least pc := by
  cases place with
  | frame index =>
    obtain ⟨i, hi, -⟩ := h
    exact tame_next hi hle
  | slot record index =>
    obtain ⟨w, i, hi, -, -⟩ := h
    exact tame_next hi hle

theorem tame_store {place : Place} (h : r.StoresAt pc place) (hle : least ≤ pc) (hplace : rules.store place) :
    r.TameAt rules least pc := by
  cases place with
  | frame index =>
    obtain ⟨i, hi, -⟩ := h
    exact tame_next hi hle
  | slot record index =>
    obtain ⟨w, i, hi, rfl, rfl⟩ := h
    refine tame_of_holds hi ⟨nofun, fun w' j' heq => ?_, fun next hnext => ?_⟩
    · cases heq
      exact hplace
    · rw [List.mem_singleton.mp hnext]
      exact Nat.le_succ_of_le hle

end

/-- The jumps out of the innermost loop go nowhere before an address. -/
def LoopsBehind (loop : Option LoopTargets) (least : Nat) : Prop :=
  ∀ targets, loop = some targets → least ≤ targets.start ∧ least ≤ targets.exit

section
variable {r : Routine} {rules : Rules} {least : Nat}

mutual

/-- An expression that follows the rules has tame code, and no jump in it goes anywhere before it, but to a loop
    around it. -/
theorem expr_tame {loop : Option LoopTargets} {dl d pc : Nat} (hloop : LoopsBehind loop least) (hpc : least ≤ pc) :
    (e : Expr) → Stands.expr r loop pc e → Obeys.expr rules e →
    Along (fun a _ => r.TameAt rules least a) pc (Sites.expr dl d e)
  | .unit, h, _ => ⟨tame_next h hpc, trivial⟩
  | .bool _, h, _ => ⟨tame_next h hpc, trivial⟩
  | .int _, h, _ => ⟨tame_constant h hpc, trivial⟩
  | .float _, h, _ => ⟨tame_constant h hpc, trivial⟩
  | .text _, h, _ => ⟨tame_constant h hpc, trivial⟩
  | .load _, h, _ => ⟨tame_load h hpc, trivial⟩
  | .function _, ⟨_, h, _⟩, _ => ⟨tame_next h hpc, trivial⟩
  | .imported _, ⟨_, h, _⟩, _ => ⟨tame_next h hpc, trivial⟩
  | .both left right, h, ho => by
    obtain ⟨hl, hbl, hr, hbr, htrue, hjump, hfalse⟩ := h
    simp only [Sites.expr, along_append, along_cons, along_nil, Sites.length_expr, and_true]
    exact ⟨expr_tame hloop hpc left hl ho.1, tame_branch hbl (by omega) (by omega),
      expr_tame hloop (by omega) right hr ho.2, tame_branch hbr (by omega) (by omega), tame_next htrue (by omega),
      tame_jump hjump (by omega), tame_next hfalse (by omega)⟩
  | .either left right, h, ho => by
    obtain ⟨hl, hbl, htrue₁, hjump₁, hr, hbr, htrue₂, hjump₂, hfalse⟩ := h
    simp only [Sites.expr, along_append, along_cons, along_nil, Sites.length_expr, and_true]
    exact ⟨expr_tame hloop hpc left hl ho.1, tame_branch hbl (by omega) (by omega), tame_next htrue₁ (by omega),
      tame_jump hjump₁ (by omega), expr_tame hloop (by omega) right hr ho.2, tame_branch hbr (by omega) (by omega),
      tame_next htrue₂ (by omega), tame_jump hjump₂ (by omega), tame_next hfalse (by omega)⟩
  | .operate _ left right, h, ho => by
    obtain ⟨hl, hr, hop⟩ := h
    simp only [Sites.expr, along_append, along_cons, along_nil, Sites.length_expr, and_true]
    exact ⟨expr_tame hloop hpc left hl ho.1, expr_tame hloop (by omega) right hr ho.2, tame_next hop (by omega)⟩
  | .unary op operand, h, ho => by
    obtain ⟨he, hop⟩ := h
    simp only [Sites.expr, along_append, along_cons, along_nil, Sites.length_expr, and_true]
    refine ⟨expr_tame hloop hpc operand he ho, ?_⟩
    cases op with
    | neg => exact tame_next (i := .neg) hop (by omega)
    | not => exact tame_next (i := .not) hop (by omega)
  | .call callee args, h, ho => by
    obtain ⟨hc, ha, argc, hcall, -⟩ := h
    simp only [Sites.expr, along_append, along_cons, along_nil, Sites.length_expr, Sites.length_exprs, and_true]
    exact ⟨expr_tame hloop hpc callee hc ho.2.1, exprs_tame hloop (by omega) args ha ho.2.2, tame_next hcall (by omega)⟩
  | .intrinsic i args, h, ho => by
    obtain ⟨ha, argc, hcall, -⟩ := h
    simp only [Sites.expr, along_append, along_cons, along_nil, Sites.length_exprs, and_true]
    exact ⟨exprs_tame hloop hpc args ha ho.2, tame_next hcall (by omega)⟩
  | .index base position, h, ho => by
    obtain ⟨hb, hp, hindex⟩ := h
    simp only [Sites.expr, along_append, along_cons, along_nil, Sites.length_expr, and_true]
    exact ⟨expr_tame hloop hpc base hb ho.1, expr_tame hloop (by omega) position hp ho.2, tame_next hindex (by omega)⟩
  | .list items, h, ho => by
    obtain ⟨hi, count, hlist, -⟩ := h
    simp only [Sites.expr, along_append, along_cons, along_nil, Sites.length_exprs, and_true]
    exact ⟨exprs_tame hloop hpc items hi ho, tame_next hlist (by omega)⟩
  | .branch condition body otherwise, h, ho => by
    obtain ⟨hc, hbranch, hb, hjump, he⟩ := h
    simp only [Sites.expr, along_append, along_cons, Sites.length_expr, Sites.length_block]
    exact ⟨expr_tame hloop hpc condition hc ho.1, tame_branch hbranch (by omega) (by omega),
      block_tame hloop (by omega) body hb ho.2.1, tame_jump hjump (by omega),
      block_tame hloop (by omega) otherwise he ho.2.2⟩
  | .block b, h, ho => block_tame hloop hpc b h ho

theorem exprs_tame {loop : Option LoopTargets} {dl d pc : Nat} (hloop : LoopsBehind loop least) (hpc : least ≤ pc) :
    (es : List Expr) → Stands.exprs r loop pc es → Obeys.exprs rules es →
    Along (fun a _ => r.TameAt rules least a) pc (Sites.exprs dl d es)
  | [], _, _ => trivial
  | e :: es, h, ho => by
    simp only [Sites.exprs, along_append, Sites.length_expr]
    exact ⟨expr_tame hloop hpc e h.1 ho.1, exprs_tame hloop (by omega) es h.2 ho.2⟩

theorem stmt_tame {loop : Option LoopTargets} {dl d pc : Nat} (hloop : LoopsBehind loop least) (hpc : least ≤ pc) :
    (s : Stmt) → Stands.stmt r loop pc s → Obeys.stmt rules s →
    Along (fun a _ => r.TameAt rules least a) pc (Sites.stmt dl d s)
  | .store place value _, h, ho => by
    simp only [Sites.stmt, along_append, along_cons, along_nil, Sites.length_expr, and_true]
    exact ⟨expr_tame hloop hpc value h.1 ho.2, tame_store h.2 (by omega) ho.1⟩
  | .setIndex base position value _, h, ho => by
    obtain ⟨hb, hp, hv, hset⟩ := h
    simp only [Sites.stmt, along_append, along_cons, along_nil, Sites.length_expr, and_true]
    exact ⟨expr_tame hloop hpc base hb ho.1, expr_tame hloop (by omega) position hp ho.2.1,
      expr_tame hloop (by omega) value hv ho.2.2, tame_next hset (by omega)⟩
  | .eval e _, h, ho => by
    simp only [Sites.stmt, along_append, along_cons, along_nil, Sites.length_expr, and_true]
    exact ⟨expr_tame hloop hpc e h.1 ho, tame_next h.2 (by omega)⟩
  | .ret value _, h, ho => by
    simp only [Sites.stmt, along_append, along_cons, along_nil, Sites.length_expr, and_true]
    exact ⟨expr_tame hloop hpc value h.1 ho, tame_ret h.2⟩
  | .loop condition body _, h, ho => by
    obtain ⟨hc, hbranch, hb, hpop, hjump⟩ := h
    have inner : LoopsBehind (some ⟨pc, pc + Size.expr condition + 1 + Size.block body + 2⟩) least := by
      intro targets htargets
      cases htargets
      exact ⟨hpc, by simp only; omega⟩
    simp only [Sites.stmt, along_append, along_cons, along_nil, Sites.length_expr, Sites.length_block, and_true]
    exact ⟨expr_tame hloop hpc condition hc ho.1, tame_branch hbranch (by omega) (by omega),
      block_tame inner (by omega) body hb ho.2, tame_next hpop (by omega), tame_jump hjump hpc⟩
  | .leave _, ⟨targets, htargets, h⟩, _ => ⟨tame_jump h (hloop targets htargets).2, trivial⟩
  | .next _, ⟨targets, htargets, h⟩, _ => ⟨tame_jump h (hloop targets htargets).1, trivial⟩

theorem stmts_tame {loop : Option LoopTargets} {dl d pc : Nat} (hloop : LoopsBehind loop least) (hpc : least ≤ pc) :
    (ss : List Stmt) → Stands.stmts r loop pc ss → Obeys.stmts rules ss →
    Along (fun a _ => r.TameAt rules least a) pc (Sites.stmts dl d ss)
  | [], _, _ => trivial
  | s :: ss, h, ho => by
    simp only [Sites.stmts, along_append, Sites.length_stmt]
    exact ⟨stmt_tame hloop hpc s h.1 ho.1, stmts_tame hloop (by omega) ss h.2 ho.2⟩

theorem tail_tame {loop : Option LoopTargets} {dl d pc : Nat} (hloop : LoopsBehind loop least) (hpc : least ≤ pc) :
    (t : Tail) → Stands.tail r loop pc t → Obeys.tail rules t →
    Along (fun a _ => r.TameAt rules least a) pc (Sites.tail dl d t)
  | .nothing, h, _ => ⟨tame_next h hpc, trivial⟩
  | .value e _, h, ho => expr_tame hloop hpc e h ho

theorem block_tame {loop : Option LoopTargets} {dl d pc : Nat} (hloop : LoopsBehind loop least) (hpc : least ≤ pc) :
    (b : Block) → Stands.block r loop pc b → Obeys.block rules b →
    Along (fun a _ => r.TameAt rules least a) pc (Sites.block dl d b)
  | .mk body last, h, ho => by
    simp only [Sites.block, along_append, Sites.length_stmts]
    exact ⟨stmts_tame hloop hpc body h.1 ho.1, tail_tame hloop (by omega) last h.2 ho.2⟩

end

/-! ### Stretches of code -/

theorem loopsBehind_none (least : Nat) : LoopsBehind none least := fun _ h => nomatch h

/-- Every instruction from one address to another is tame. -/
def TameFrom (r : Routine) (rules : Rules) (least pc stop : Nat) : Prop :=
  ∀ a, pc ≤ a → a < stop → r.TameAt rules least a

theorem tameFrom_of_along {sites : List Site} {pc stop : Nat}
    (h : Along (fun a _ => r.TameAt rules least a) pc sites) (hstop : stop = pc + sites.length) :
    TameFrom r rules least pc stop := by
  intro a hle hlt
  have hk : a - pc < sites.length := by omega
  have tame := along_iff.mp h (a - pc) _ (List.getElem?_eq_getElem hk)
  rwa [Nat.add_sub_cancel' hle] at tame

theorem tameFrom_one {pc : Nat} (h : r.TameAt rules least pc) : TameFrom r rules least pc (pc + 1) := by
  intro a hle hlt
  obtain rfl : a = pc := Nat.le_antisymm (Nat.le_of_lt_succ hlt) hle
  exact h

/-- The code from an address to the end is tame, but for instructions that assign slots of a record, each behind
    all others with a smaller slot. -/
inductive Ordered (r : Routine) (rules : Rules) (own stop : Nat) : (least pc : Nat) → Prop where
  | nil (least : Nat) : Ordered r rules own stop least stop
  | tame {least pc mid : Nat} (stretch : TameFrom r rules pc pc mid) (hle : pc ≤ mid)
      (rest : Ordered r rules own stop least mid) : Ordered r rules own stop least pc
  | store {least pc slot : Nat} (stores : r.StoresAt pc (.slot own slot)) (fresh : least ≤ slot)
      (rest : Ordered r rules own stop (slot + 1) (pc + 1)) : Ordered r rules own stop least pc

section
variable {own stop pc : Nat}

theorem Ordered.le (h : Ordered r rules own stop least pc) : pc ≤ stop := by
  induction h with
  | nil => exact Nat.le_refl _
  | tame _ hle _ ih => exact Nat.le_trans hle ih
  | store _ _ _ ih => exact Nat.le_of_succ_le ih

/-- Nothing in ordered code opens a record, and no jump leads out of it to an address before it. -/
theorem Ordered.inside (h : Ordered r rules own stop least pc) {a : Nat} {i : Instr} (hle : pc ≤ a) (hlt : a < stop)
    (hi : r.Holds a i) : i ≠ .openRecord ∧ ∀ next ∈ i.exits a, pc ≤ next := by
  induction h with
  | nil => omega
  | @tame least pc mid stretch hmid _ ih =>
    rcases Nat.lt_or_ge a mid with ha | ha
    · have tame := stretch a hle ha i hi
      exact ⟨tame.opens, tame.exits⟩
    · obtain ⟨hopens, hexits⟩ := ih ha
      exact ⟨hopens, fun next hnext => Nat.le_trans hmid (hexits next hnext)⟩
  | @store least pc slot stores _ _ ih =>
    rcases Nat.eq_or_lt_of_le hle with rfl | ha
    · obtain ⟨w, j, hstore, -, -⟩ := stores
      obtain rfl := Option.some.inj (hi.symm.trans hstore)
      refine ⟨nofun, fun next hnext => ?_⟩
      rw [List.mem_singleton.mp hnext]
      exact Nat.le_succ _
    · obtain ⟨hopens, hexits⟩ := ih ha
      exact ⟨hopens, fun next hnext => Nat.le_of_succ_le (hexits next hnext)⟩

variable {a b : Nat} {w : UInt32} {j : UInt16}

/-- What the rules do not allow to be assigned is a slot of the record, from `least` on. -/
theorem Ordered.fixed (h : Ordered r rules own stop least pc) (hle : pc ≤ a) (hlt : a < stop)
    (hi : r.Holds a (.storeSlot w j)) (hrules : ¬ rules.store (.slot w.toNat j.toNat)) :
    w.toNat = own ∧ least ≤ j.toNat := by
  induction h with
  | nil => omega
  | tame stretch _ _ ih => exact ih (Nat.not_lt.mp fun hin => hrules ((stretch a hle hin _ hi).stores w j rfl))
  | store stores fresh _ ih =>
    rcases Nat.eq_or_lt_of_le hle with rfl | ha
    · obtain ⟨w₀, j₀, hstore, hown, hslot⟩ := stores
      cases Option.some.inj (hi.symm.trans hstore)
      exact ⟨hown, hslot ▸ fresh⟩
    · obtain ⟨hown, hslot⟩ := ih ha
      exact ⟨hown, Nat.le_trans fresh (Nat.le_of_succ_le hslot)⟩

/-- No way leads back to where such a slot is assigned. -/
theorem Ordered.final (h : Ordered r rules own stop least pc) (hle : pc ≤ a) (hlt : a < stop)
    (hi : r.Holds a (.storeSlot w j)) (hrules : ¬ rules.store (.slot w.toNat j.toNat)) {behind : Nat} {i : Instr}
    (hbehind : a < behind) (hstop : behind < stop) (hbehind' : r.Holds behind i) :
    ∀ next ∈ i.exits behind, a < next := by
  induction h with
  | nil => omega
  | tame stretch _ _ ih => exact ih (Nat.not_lt.mp fun hin => hrules ((stretch a hle hin _ hi).stores w j rfl))
  | store _ _ rest ih =>
    rcases Nat.eq_or_lt_of_le hle with rfl | ha
    · exact (rest.inside hbehind hstop hbehind').2
    · exact ih ha

/-- Such a slot is assigned at one address only. -/
theorem Ordered.once (h : Ordered r rules own stop least pc) (ha : pc ≤ a) (ha' : a < stop) (hb : pc ≤ b) (hb' : b < stop)
    (hi : r.Holds a (.storeSlot w j)) (hj : r.Holds b (.storeSlot w j)) (hrules : ¬ rules.store (.slot w.toNat j.toNat)) :
    a = b := by
  induction h with
  | nil => omega
  | @tame least pc mid stretch _ _ ih =>
    have beyond {c : Nat} (hle : pc ≤ c) (hc : r.Holds c (.storeSlot w j)) : mid ≤ c :=
      Nat.not_lt.mp fun hin => hrules ((stretch c hle hin _ hc).stores w j rfl)
    exact ih (beyond ha hi) (beyond hb hj)
  | @store least pc slot stores _ rest ih =>
    obtain ⟨w₀, j₀, hstore, -, hslot⟩ := stores
    -- Behind this instruction only greater slots are assigned.
    have other {c : Nat} (hpc : r.Holds pc (.storeSlot w j)) (hlt : pc < c) (hc : c < stop)
        (hstored : r.Holds c (.storeSlot w j)) : False := by
      cases Option.some.inj (hpc.symm.trans hstore)
      have hgreater := (rest.fixed hlt hc hstored hrules).2
      omega
    rcases Nat.eq_or_lt_of_le ha with rfl | ha
    · rcases Nat.eq_or_lt_of_le hb with heq | hb
      · exact heq
      · exact (other hi hb hb' hj).elim
    · rcases Nat.eq_or_lt_of_le hb with rfl | hb
      · exact (other hj ha ha' hi).elim
      · exact ih ha hb

end

/-! ### Functions -/

/-- Declared functions are stored in the order of the slots. -/
theorem stores_ordered {own stop : Nat} {n k pc : Nat}
    (h : Stands.stores r own pc ((List.range' k n).map fun i => ⟨i, i⟩))
    (rest : Ordered r rules own stop (k + n) (pc + n * 2)) : Ordered r rules own stop k pc := by
  induction n generalizing k pc with
  | zero => exact rest
  | succ n ih =>
    obtain ⟨⟨f, hf, -⟩, hstore, hrest⟩ := h
    refine .tame (tameFrom_one (tame_next hf (Nat.le_refl _))) (Nat.le_succ pc) (.store hstore (Nat.le_refl k) (ih hrest ?_))
    have hk : k + 1 + n = k + (n + 1) := by omega
    have hpc : pc + 1 + 1 + n * 2 = pc + (n + 1) * 2 := by omega
    rw [hk, hpc]
    exact rest

/-- Each slot gets its function right behind the instruction that loads it. -/
theorem stores_installs {own n k pc : Nat} (h : Stands.stores r own pc ((List.range' k n).map fun i => ⟨i, i⟩)) {a : Nat}
    {i : Instr} (hle : pc ≤ a) (hlt : a < pc + n * 2) (hi : r.Holds a i) : i.exits a = [a + 1] ∧
      ∀ w j, i = .storeSlot w j → ∃ before f, a = before + 1 ∧ r.Holds before (.loadFunction f) ∧ f.toNat = j.toNat := by
  induction n generalizing k pc with
  | zero => omega
  | succ n ih =>
    obtain ⟨⟨f, hf, hindex⟩, ⟨w, j, hstore, -, hslot⟩, hrest⟩ := h
    rcases Nat.eq_or_lt_of_le hle with rfl | hle
    · obtain rfl := Option.some.inj (hi.symm.trans hf)
      exact ⟨rfl, nofun⟩
    rcases Nat.eq_or_lt_of_le hle with rfl | hle
    · obtain rfl := Option.some.inj (hi.symm.trans hstore)
      refine ⟨rfl, fun w' j' heq => ?_⟩
      cases heq
      exact ⟨pc, f, rfl, hf, hindex.trans hslot.symm⟩
    · exact ih hrest hle (by omega)

/-- The top level assigns what it declares in the order of the slots. -/
theorem topLevel_ordered {fixed : Nat → Nat → Prop} {own stop least pc : Nat} {ss : List Stmt}
    (h : TopLevel rules fixed least ss) (hfixed : ∀ record slot, fixed record slot → record = own)
    (stands : Stands.stmts r none pc ss) (rest : ∀ least, Ordered r rules own stop least (pc + Size.stmts ss)) :
    Ordered r rules own stop least pc := by
  induction h generalizing pc with
  | nil least => exact rest least
  | @plain least s ss obeys _ ih =>
    have along : Along (fun a _ => r.TameAt rules pc a) pc (Sites.stmt 0 0 s) :=
      stmt_tame (loopsBehind_none pc) (Nat.le_refl pc) s stands.1 obeys
    have stretch := tameFrom_of_along along (by rw [Sites.length_stmt])
    refine .tame stretch (Nat.le_add_right ..) (ih stands.2 fun least => ?_)
    rw [Nat.add_assoc]
    exact rest least
  | @declares least record slot line value ss own' fresh obeys _ ih =>
    obtain ⟨⟨hvalue, hstore⟩, hrest⟩ := stands
    obtain rfl := hfixed record slot own'
    have along : Along (fun a _ => r.TameAt rules pc a) pc (Sites.expr 0 0 value) :=
      expr_tame (loopsBehind_none pc) (Nat.le_refl pc) value hvalue obeys
    have stretch := tameFrom_of_along along (by rw [Sites.length_expr])
    refine .tame stretch (Nat.le_add_right ..) (.store hstore fresh (ih hrest fun least => ?_))
    have hpc : pc + Size.expr value + 1 + Size.stmts ss = pc + Size.stmts (.store (.slot record slot) value line :: ss) := by
      rw [Size.stmts, Size.stmt, Nat.add_assoc pc, Nat.add_assoc pc]
    rw [hpc]
    exact rest least

/-- The entry routine opens its record first, then stores the functions, and behind that it assigns what must not be
    assigned again in the order of the slots. -/
theorem entry_ordered {p : Bound.Program} {index own count : Nat} {f : Func} {ss : List Stmt} {t : Tail}
    {fixed : Nat → Nat → Prop} (h : Stands.function r p index f) (hopening : opening? p index = some own)
    (hslots : p.functionSlots = (List.range count).map fun i => ⟨i, i⟩) (hbody : f.body = .mk ss t)
    (top : TopLevel rules fixed count ss) (hfixed : ∀ record slot, fixed record slot → record = own)
    (obeys : Obeys.tail rules t) : r.Holds 0 .openRecord ∧
      Stands.stores r own 1 ((List.range' 0 count).map fun i => ⟨i, i⟩) ∧
      Ordered r rules own r.code.size count (1 + count * 2) := by
  obtain ⟨hopen, hstores⟩ := h.opening own hopening
  have hsize : Size.opening p index = 1 + count * 2 := by
    rw [Size.opening, hopening, hslots, List.length_map, List.length_range]
    exact Nat.add_comm ..
  have hbodyStands := h.body
  have hret := h.last
  have hcode := h.size
  rw [hbody, hsize] at hbodyStands hret hcode
  rw [hslots, List.range_eq_range'] at hstores
  refine ⟨hopen, hstores, topLevel_ordered top hfixed hbodyStands.1 fun least => ?_⟩
  let last := 1 + count * 2 + Size.stmts ss
  have along : Along (fun a _ => r.TameAt rules last a) last (Sites.tail 0 0 t) :=
    tail_tame (loopsBehind_none last) (Nat.le_refl last) t hbodyStands.2 obeys
  have stretch := tameFrom_of_along along (by rw [Sites.length_tail])
  refine .tame stretch (Nat.le_add_right ..) (.tame (tameFrom_one (tame_ret ?_)) (Nat.le_succ _) ?_)
  · rw [Size.block, ← Nat.add_assoc] at hret
    exact hret
  · rw [hcode, Size.block, ← Nat.add_assoc]
    exact .nil least

/-- All code of another function is tame. -/
theorem function_tame {p : Bound.Program} {index : Nat} {f : Func} (h : Stands.function r p index f)
    (hopening : opening? p index = none) (obeys : Obeys.block rules f.body) {pc : Nat} : r.TameAt rules 0 pc := by
  intro i hi
  have hsize : Size.opening p index = 0 := by
    rw [Size.opening, hopening]
    rfl
  have hbody := h.body
  have hret := h.last
  have hcode := h.size
  rw [hsize, Nat.zero_add] at hret hcode
  rw [hsize] at hbody
  have along : Along (fun a _ => r.TameAt rules 0 a) 0 (Sites.block 0 0 f.body) :=
    block_tame (loopsBehind_none 0) (Nat.le_refl 0) f.body hbody obeys
  have stretch := tameFrom_of_along along (by rw [Sites.length_block])
  have hlt := (Array.getElem?_eq_some_iff.mp hi).1
  rw [hcode] at hlt
  rcases Nat.lt_or_ge pc (Size.block f.body) with hin | hge
  · exact stretch pc (Nat.zero_le _) (by rwa [Nat.zero_add]) i hi
  · obtain rfl : pc = Size.block f.body := Nat.le_antisymm (Nat.le_of_lt_succ hlt) hge
    exact tame_ret hret i hi

end
end Lowering
end ScriptEngine
