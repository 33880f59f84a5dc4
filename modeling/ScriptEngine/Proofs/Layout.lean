import ScriptEngine.Bound.Lowering
import ScriptEngine.Proofs.Sequencing

/-! Where the code of a bound unit stands. `Stands` says which instruction of a routine stands at which
    address for every part of a bound tree; lowering a tree gives code for which it holds. Everything else
    that is said about emitted code is derived from `Stands`. -/

namespace ScriptEngine

namespace Routine

/-- The instruction at an address. -/
def Holds (r : Routine) (pc : Nat) (i : Instr) : Prop := r.code[pc]? = some i

def JumpsAt (r : Routine) (pc target : Nat) : Prop := ∃ t, r.Holds pc (.jump t) ∧ t.toNat = target

def BranchesAt (r : Routine) (pc target : Nat) : Prop := ∃ t, r.Holds pc (.jumpIfFalse t) ∧ t.toNat = target

/-- The instruction at an address pushes a constant. -/
def ConstantAt (r : Routine) (pc : Nat) (c : Constant) : Prop :=
  ∃ i, r.Holds pc (.const i) ∧ r.constants[i.toNat]? = some c

def LoadsAt (r : Routine) (pc : Nat) : Bound.Place → Prop
  | .frame index => ∃ i, r.Holds pc (.loadLocal i) ∧ i.toNat = index
  | .slot record index => ∃ w i, r.Holds pc (.loadSlot w i) ∧ w.toNat = record ∧ i.toNat = index

def StoresAt (r : Routine) (pc : Nat) : Bound.Place → Prop
  | .frame index => ∃ i, r.Holds pc (.storeLocal i) ∧ i.toNat = index
  | .slot record index => ∃ w i, r.Holds pc (.storeSlot w i) ∧ w.toNat = record ∧ i.toNat = index

/-- Code stands in a routine from an address on. -/
def Contains (r : Routine) (pc : Nat) (code : List Instr) : Prop :=
  ∀ k i, code[k]? = some i → r.Holds (pc + k) i

end Routine

namespace Lowering

/-- The instruction of an operator with one operand. -/
def unaryInstr : UnaryOp → Instr
  | .neg => .neg
  | .not => .not

namespace Stands

mutual

/-- The code of an expression stands at `pc`; `loop` says where the jumps out of the innermost loop go. -/
def expr (r : Routine) (loop : Option LoopTargets) (pc : Nat) : Bound.Expr → Prop
  | .unit => r.Holds pc .unit
  | .bool value => r.Holds pc (.bool value)
  | .int value => r.ConstantAt pc (.int value)
  | .float value => r.ConstantAt pc (.float value.toBits)
  | .text value => r.ConstantAt pc (.text value)
  | .load place => r.LoadsAt pc place
  | .function index => ∃ i, r.Holds pc (.loadFunction i) ∧ i.toNat = index
  | .imported index => ∃ i, r.Holds pc (.loadImport i) ∧ i.toNat = index
  | .both left right =>
    let second := pc + Size.expr left + 1
    let fails := second + Size.expr right + 3
    expr r loop pc left ∧ r.BranchesAt (pc + Size.expr left) fails ∧ expr r loop second right ∧
      r.BranchesAt (second + Size.expr right) fails ∧ r.Holds (second + Size.expr right + 1) (.bool true) ∧
      r.JumpsAt (second + Size.expr right + 2) (fails + 1) ∧ r.Holds fails (.bool false)
  | .either left right =>
    let second := pc + Size.expr left + 3
    let fails := second + Size.expr right + 3
    expr r loop pc left ∧ r.BranchesAt (pc + Size.expr left) second ∧
      r.Holds (pc + Size.expr left + 1) (.bool true) ∧ r.JumpsAt (pc + Size.expr left + 2) (fails + 1) ∧
      expr r loop second right ∧ r.BranchesAt (second + Size.expr right) fails ∧
      r.Holds (second + Size.expr right + 1) (.bool true) ∧
      r.JumpsAt (second + Size.expr right + 2) (fails + 1) ∧ r.Holds fails (.bool false)
  | .operate op left right =>
    expr r loop pc left ∧ expr r loop (pc + Size.expr left) right ∧
      r.Holds (pc + Size.expr left + Size.expr right) (.binary op)
  | .unary op operand => expr r loop pc operand ∧ r.Holds (pc + Size.expr operand) (unaryInstr op)
  | .call callee args =>
    expr r loop pc callee ∧ exprs r loop (pc + Size.expr callee) args ∧
      ∃ argc, r.Holds (pc + Size.expr callee + Size.exprs args) (.call argc) ∧ argc.toNat = args.length
  | .intrinsic i args =>
    exprs r loop pc args ∧
      ∃ argc, r.Holds (pc + Size.exprs args) (.intrinsic i.id argc) ∧ argc.toNat = args.length
  | .index base position =>
    expr r loop pc base ∧ expr r loop (pc + Size.expr base) position ∧
      r.Holds (pc + Size.expr base + Size.expr position) .index
  | .list items =>
    exprs r loop pc items ∧ ∃ count, r.Holds (pc + Size.exprs items) (.makeList count) ∧ count.toNat = items.length
  | .branch condition body otherwise =>
    let start := pc + Size.expr condition + 1
    let second := start + Size.block body + 1
    expr r loop pc condition ∧ r.BranchesAt (pc + Size.expr condition) second ∧ block r loop start body ∧
      r.JumpsAt (start + Size.block body) (second + Size.block otherwise) ∧ block r loop second otherwise
  | .block b => block r loop pc b

def exprs (r : Routine) (loop : Option LoopTargets) (pc : Nat) : List Bound.Expr → Prop
  | [] => True
  | e :: es => expr r loop pc e ∧ exprs r loop (pc + Size.expr e) es

def stmt (r : Routine) (loop : Option LoopTargets) (pc : Nat) : Bound.Stmt → Prop
  | .store place value _ => expr r loop pc value ∧ r.StoresAt (pc + Size.expr value) place
  | .setIndex base position value _ =>
    expr r loop pc base ∧ expr r loop (pc + Size.expr base) position ∧
      expr r loop (pc + Size.expr base + Size.expr position) value ∧
      r.Holds (pc + Size.expr base + Size.expr position + Size.expr value) .setIndex
  | .eval e _ => expr r loop pc e ∧ r.Holds (pc + Size.expr e) .pop
  | .ret value _ => expr r loop pc value ∧ r.Holds (pc + Size.expr value) .ret
  | .loop condition body _ =>
    let start := pc + Size.expr condition + 1
    let exit := start + Size.block body + 2
    expr r loop pc condition ∧ r.BranchesAt (pc + Size.expr condition) exit ∧
      block r (some ⟨pc, exit⟩) start body ∧ r.Holds (start + Size.block body) .pop ∧
      r.JumpsAt (start + Size.block body + 1) pc
  | .leave _ => ∃ targets, loop = some targets ∧ r.JumpsAt pc targets.exit
  | .next _ => ∃ targets, loop = some targets ∧ r.JumpsAt pc targets.start

def stmts (r : Routine) (loop : Option LoopTargets) (pc : Nat) : List Bound.Stmt → Prop
  | [] => True
  | s :: ss => stmt r loop pc s ∧ stmts r loop (pc + Size.stmt s) ss

def tail (r : Routine) (loop : Option LoopTargets) (pc : Nat) : Bound.Tail → Prop
  | .nothing => r.Holds pc .unit
  | .value e _ => expr r loop pc e

def block (r : Routine) (loop : Option LoopTargets) (pc : Nat) : Bound.Block → Prop
  | .mk body last => stmts r loop pc body ∧ tail r loop (pc + Size.stmts body) last

end

end Stands

/-! ### Pieces of code -/

/-- Code that was emitted for the address `pc`: how long it is, and what stands in every routine that
    contains it and has the constants known so far. -/
structure Piece (t : Tables) (pc size : Nat) (code : List Instr) (t' : Tables) (stands : Routine → Prop) : Prop where
  grows : t.constants.toList <+: t'.constants.toList
  length : code.length = size
  stands : ∀ r : Routine, r.Contains pc code → t'.constants.toList <+: r.constants.toList → stands r

namespace Piece

variable {t t' t'' : Tables} {pc n k : Nat} {a b : List Instr} {p q : Routine → Prop}

theorem imp (h : Piece t pc n a t' p) (himp : ∀ r, p r → q r) : Piece t pc n a t' q :=
  ⟨h.grows, h.length, fun r hr hc => himp r (h.stands r hr hc)⟩

theorem nil : Piece t pc 0 [] t fun _ => True := ⟨List.prefix_rfl, rfl, fun _ _ _ => trivial⟩

theorem instr (i : Instr) : Piece t pc 1 [i] t fun r => r.Holds pc i :=
  ⟨List.prefix_rfl, rfl, fun _ hr _ => hr 0 i rfl⟩

/-- One piece after the other; the second one was emitted for the address where the first one ends. -/
theorem append {m : Nat} (ha : Piece t pc n a t' p) (hb : Piece t' m k b t'' q) (hm : m = pc + n := by omega) :
    Piece t pc (n + k) (a ++ b) t'' fun r => p r ∧ q r where
  grows := ha.grows.trans hb.grows
  length := by rw [List.length_append, ha.length, hb.length]
  stands r hr hc := by
    subst hm
    refine ⟨ha.stands r (fun j i hj => hr j i ?_) (hb.grows.trans hc), hb.stands r (fun j i hj => ?_) hc⟩
    · rw [List.getElem?_append_left (List.getElem?_eq_some_iff.mp hj).1]
      exact hj
    · rw [Nat.add_assoc]
      refine hr (n + j) i ?_
      rw [List.getElem?_append_right (by rw [ha.length]; omega), ha.length, Nat.add_sub_cancel_left]
      exact hj

theorem jump {target : Nat} {x : UInt32} (hx : x.toNat = target) :
    Piece t pc 1 [.jump x] t fun r => r.JumpsAt pc target :=
  (instr (.jump x)).imp fun _ h => ⟨x, h, hx⟩

theorem branch {target : Nat} {x : UInt32} (hx : x.toNat = target) :
    Piece t pc 1 [.jumpIfFalse x] t fun r => r.BranchesAt pc target :=
  (instr (.jumpIfFalse x)).imp fun _ h => ⟨x, h, hx⟩

/-- Marking a line changes no code and no constant. -/
theorem after (hc : t'.constants = t.constants) (h : Piece t' pc n a t'' p) : Piece t pc n a t'' p :=
  ⟨hc ▸ h.grows, h.length, h.stands⟩

/-- The same piece, described otherwise. -/
theorem cast {a' : List Instr} {n' : Nat} (h : Piece t pc n a t' p) (ha : a = a') (hn : n = n')
    (himp : ∀ r, p r → q r) : Piece t pc n' a' t' q := by
  subst ha hn
  exact h.imp himp

end Piece

/-! ### Operands -/

theorem length_markLine (mark : LineMark) (lines : List LineMark) : (markLine mark lines).length ≤ lines.length + 1 := by
  fun_induction markLine mark lines with
  | case1 => exact Nat.le_refl 1
  | case2 last h => exact Nat.le_succ 1
  | case3 last h => exact Nat.le_refl 2
  | case4 first rest h ih => exact Nat.succ_le_succ ih

section
variable {t t' : Tables} {ctx : Context}

theorem run_guard {α : Type} {c : Prop} [Decidable c] {x y : α} {e : EmitError}
    (h : (if c then pure x else throw e : Emit α).run t = .ok (y, t')) : c ∧ y = x ∧ t' = t := by
  split at h
  · rename_i hc
    obtain ⟨rfl, rfl⟩ := run_pure_eq_ok.mp h
    exact ⟨hc, rfl, rfl⟩
  · cases h

theorem target_run {pc : Nat} {x : UInt32} (h : (target ctx pc).run t = .ok (x, t')) : x.toNat = pc ∧ t' = t := by
  obtain ⟨hlt, rfl, rfl⟩ := run_guard h
  exact ⟨UInt32.toNat_ofNat_of_lt' hlt, rfl⟩

theorem narrow_run {index : Nat} {x : UInt16} (h : (narrow index).run t = .ok (x, t')) :
    x.toNat = index ∧ t' = t := by
  obtain ⟨hlt, rfl, rfl⟩ := run_guard h
  exact ⟨UInt16.toNat_ofNat_of_lt' hlt, rfl⟩

theorem localIndex_run {index : Nat} {x : UInt16} (h : (localIndex ctx index).run t = .ok (x, t')) :
    x.toNat = index ∧ t' = t := by
  obtain ⟨hle, rfl, rfl⟩ := run_guard h
  exact ⟨UInt16.toNat_ofNat_of_lt' (Nat.lt_succ_of_le hle), rfl⟩

theorem recordIndex_run {record : Nat} {x : UInt32} (h : (recordIndex record).run t = .ok (x, t')) :
    x.toNat = record ∧ t' = t := by
  obtain ⟨hlt, rfl, rfl⟩ := run_guard h
  exact ⟨UInt32.toNat_ofNat_of_lt' hlt, rfl⟩

theorem argumentCount_run {count : Nat} {x : UInt8} (h : (argumentCount ctx count).run t = .ok (x, t')) :
    x.toNat = count ∧ t' = t := by
  obtain ⟨hle, rfl, rfl⟩ := run_guard h
  exact ⟨UInt8.toNat_ofNat_of_lt' (Nat.lt_succ_of_le hle), rfl⟩

theorem elementCount_run {count : Nat} {x : UInt16} (h : (elementCount ctx count).run t = .ok (x, t')) :
    x.toNat = count ∧ t' = t := by
  obtain ⟨hle, rfl, rfl⟩ := run_guard h
  exact ⟨UInt16.toNat_ofNat_of_lt' (Nat.lt_succ_of_le hle), rfl⟩

theorem setLine_run {pc line : Nat} {u : Unit} (h : (setLine ctx pc line).run t = .ok (u, t')) :
    t'.constants = t.constants := by
  unfold setLine at h
  obtain ⟨s, t₁, hget, h⟩ := run_bind_eq_ok.mp h
  cases hget
  split at h
  · obtain ⟨-, rfl⟩ := run_pure_eq_ok.mp h
    rfl
  · obtain ⟨start, t₂, hstart, hmark⟩ := run_bind_eq_ok.mp h
    obtain ⟨-, rfl⟩ := target_run hstart
    cases hmark
    rfl

/-- The pool after a constant was looked up: it has the constant at the position that is given. -/
theorem constant_run {pc : Nat} {c : Constant} {code : List Instr} (h : (constant ctx c).run t = .ok (code, t')) :
    Piece t pc 1 code t' fun r => r.ConstantAt pc c := by
  unfold constant at h
  obtain ⟨s, t₁, hget, h⟩ := run_bind_eq_ok.mp h
  cases hget
  -- What is left is the same for a known and for a new constant, but for the pool.
  have known : ∀ {index : Nat} {pool : Array Constant}, t.constants.toList <+: pool.toList → pool[index]? = some c →
      (if index < constantLimit then do
        modify fun t => { t with constants := pool }
        return [.const (UInt16.ofNat index)]
      else throw (.tooManyConstants ctx.function) : Emit (List Instr)).run t = .ok (code, t') →
      Piece t pc 1 code t' fun r => r.ConstantAt pc c := by
    intro index pool hgrows hindex h
    split at h
    · rename_i hlt
      cases h
      refine ⟨hgrows, rfl, fun r hr hc => ⟨UInt16.ofNat index, hr 0 _ rfl, ?_⟩⟩
      rw [UInt16.toNat_ofNat_of_lt' hlt, ← Array.getElem?_toList]
      obtain ⟨rest, hrest⟩ := hc
      rw [← Array.getElem?_toList] at hindex
      rw [← hrest, List.getElem?_append_left (List.getElem?_eq_some_iff.mp hindex).1]
      exact hindex
    · cases h
  cases hfind : t.constants.findIdx? (· = c) with
  | some i =>
    obtain ⟨hlt, hi, -⟩ := Array.findIdx?_eq_some_iff_getElem.mp hfind
    simp only [hfind] at h
    refine known List.prefix_rfl ?_ h
    rw [Array.getElem?_eq_getElem hlt, of_decide_eq_true hi]
  | none =>
    simp only [hfind] at h
    refine known ?_ Array.getElem?_push_size h
    rw [Array.toList_push]
    exact List.prefix_append ..

theorem load_run {pc : Nat} {place : Bound.Place} {code : List Instr} (h : (load ctx place).run t = .ok (code, t')) :
    Piece t pc 1 code t' fun r => r.LoadsAt pc place := by
  cases place with
  | frame index =>
    obtain ⟨i, _, index, h⟩ := run_bind_eq_ok.mp h
    obtain ⟨rfl, rfl⟩ := run_pure_eq_ok.mp h
    obtain ⟨hi, rfl⟩ := localIndex_run index
    exact (Piece.instr _).imp fun r hr => ⟨i, hr, hi⟩
  | slot record index =>
    obtain ⟨w, _, record, h⟩ := run_bind_eq_ok.mp h
    obtain ⟨i, _, index, h⟩ := run_bind_eq_ok.mp h
    obtain ⟨rfl, rfl⟩ := run_pure_eq_ok.mp h
    obtain ⟨hw, rfl⟩ := recordIndex_run record
    obtain ⟨hi, rfl⟩ := narrow_run index
    exact (Piece.instr _).imp fun r hr => ⟨w, i, hr, hw, hi⟩

theorem store_run {pc : Nat} {place : Bound.Place} {code : List Instr} (h : (store ctx place).run t = .ok (code, t')) :
    Piece t pc 1 code t' fun r => r.StoresAt pc place := by
  cases place with
  | frame index =>
    obtain ⟨i, _, index, h⟩ := run_bind_eq_ok.mp h
    obtain ⟨rfl, rfl⟩ := run_pure_eq_ok.mp h
    obtain ⟨hi, rfl⟩ := localIndex_run index
    exact (Piece.instr _).imp fun r hr => ⟨i, hr, hi⟩
  | slot record index =>
    obtain ⟨w, _, record, h⟩ := run_bind_eq_ok.mp h
    obtain ⟨i, _, index, h⟩ := run_bind_eq_ok.mp h
    obtain ⟨rfl, rfl⟩ := run_pure_eq_ok.mp h
    obtain ⟨hw, rfl⟩ := recordIndex_run record
    obtain ⟨hi, rfl⟩ := narrow_run index
    exact (Piece.instr _).imp fun r hr => ⟨w, i, hr, hw, hi⟩

end

/-! ### Trees -/

mutual

/-- The code of an expression is as long as `Size` says, and stands where it was emitted for. -/
theorem expr_run {ctx : Context} {pc : Nat} {t t' : Tables} {code : List Instr} : (e : Bound.Expr) →
    (expr ctx pc e).run t = .ok (code, t') → Piece t pc (Size.expr e) code t' fun r => Stands.expr r ctx.loop pc e
  | .unit, h => by
    obtain ⟨rfl, rfl⟩ := run_pure_eq_ok.mp h
    exact .instr .unit
  | .bool value, h => by
    obtain ⟨rfl, rfl⟩ := run_pure_eq_ok.mp h
    exact .instr (.bool value)
  | .int _, h => constant_run h
  | .float _, h => constant_run h
  | .text _, h => constant_run h
  | .load _, h => load_run h
  | .function _, h => by
    obtain ⟨i, _, index, h⟩ := run_bind_eq_ok.mp h
    obtain ⟨rfl, rfl⟩ := run_pure_eq_ok.mp h
    obtain ⟨hi, rfl⟩ := narrow_run index
    exact (Piece.instr _).imp fun r hr => ⟨i, hr, hi⟩
  | .imported _, h => by
    obtain ⟨i, _, index, h⟩ := run_bind_eq_ok.mp h
    obtain ⟨rfl, rfl⟩ := run_pure_eq_ok.mp h
    obtain ⟨hi, rfl⟩ := narrow_run index
    exact (Piece.instr _).imp fun r hr => ⟨i, hr, hi⟩
  | .both left right, h => by
    obtain ⟨l, _, hl, h⟩ := run_bind_eq_ok.mp h
    obtain ⟨r, _, hr, h⟩ := run_bind_eq_ok.mp h
    obtain ⟨no, _, noTarget, h⟩ := run_bind_eq_ok.mp h
    obtain ⟨done, _, doneTarget, h⟩ := run_bind_eq_ok.mp h
    obtain ⟨rfl, rfl⟩ := run_pure_eq_ok.mp h
    obtain ⟨hno, rfl⟩ := target_run noTarget
    obtain ⟨hdone, rfl⟩ := target_run doneTarget
    -- Both tests go to the same place if they fail.
    let second := pc + Size.expr left + 1
    let fails := second + Size.expr right + 3
    have hno : no.toNat = fails := by rw [hno]; omega
    have hdone : done.toNat = fails + 1 := by rw [hdone]; omega
    have piece := (expr_run left hl).append (m := pc + Size.expr left) (.branch hno)
    have piece := piece.append (m := second) (expr_run right hr)
    have piece := piece.append (m := second + Size.expr right) (.branch hno)
    have piece := piece.append (m := second + Size.expr right + 1) (.instr (.bool true))
    have piece := piece.append (m := second + Size.expr right + 2) (.jump hdone)
    have piece := piece.append (m := fails) (.instr (.bool false))
    refine piece.cast (by simp) (by simp only [Size.expr]; omega) ?_
    rintro r ⟨⟨⟨⟨⟨⟨h₁, h₂⟩, h₃⟩, h₄⟩, h₅⟩, h₆⟩, h₇⟩
    exact ⟨h₁, h₂, h₃, h₄, h₅, h₆, h₇⟩
  | .either left right, h => by
    obtain ⟨l, _, hl, h⟩ := run_bind_eq_ok.mp h
    obtain ⟨r, _, hr, h⟩ := run_bind_eq_ok.mp h
    obtain ⟨other, _, otherTarget, h⟩ := run_bind_eq_ok.mp h
    obtain ⟨no, _, noTarget, h⟩ := run_bind_eq_ok.mp h
    obtain ⟨done, _, doneTarget, h⟩ := run_bind_eq_ok.mp h
    obtain ⟨rfl, rfl⟩ := run_pure_eq_ok.mp h
    obtain ⟨hother, rfl⟩ := target_run otherTarget
    obtain ⟨hno, rfl⟩ := target_run noTarget
    obtain ⟨hdone, rfl⟩ := target_run doneTarget
    let second := pc + Size.expr left + 3
    let fails := second + Size.expr right + 3
    have piece := (expr_run left hl).append (m := pc + Size.expr left) (.branch hother)
    have piece := piece.append (m := pc + Size.expr left + 1) (.instr (.bool true))
    have piece := piece.append (m := pc + Size.expr left + 2) (.jump hdone)
    have piece := piece.append (m := second) (expr_run right hr)
    have piece := piece.append (m := second + Size.expr right) (.branch hno)
    have piece := piece.append (m := second + Size.expr right + 1) (.instr (.bool true))
    have piece := piece.append (m := second + Size.expr right + 2) (.jump hdone)
    have piece := piece.append (m := fails) (.instr (.bool false))
    refine piece.cast (by simp) (by simp only [Size.expr]; omega) ?_
    rintro r ⟨⟨⟨⟨⟨⟨⟨⟨h₁, h₂⟩, h₃⟩, h₄⟩, h₅⟩, h₆⟩, h₇⟩, h₈⟩, h₉⟩
    exact ⟨h₁, h₂, h₃, h₄, h₅, h₆, h₇, h₈, h₉⟩
  | .operate op left right, h => by
    obtain ⟨l, _, hl, h⟩ := run_bind_eq_ok.mp h
    obtain ⟨r, _, hr, h⟩ := run_bind_eq_ok.mp h
    obtain ⟨rfl, rfl⟩ := run_pure_eq_ok.mp h
    have piece := (expr_run left hl).append (expr_run right hr)
    have piece := piece.append (m := pc + Size.expr left + Size.expr right) (.instr (.binary op))
    exact piece.imp fun r ⟨⟨h₁, h₂⟩, h₃⟩ => ⟨h₁, h₂, h₃⟩
  | .unary op operand, h => by
    obtain ⟨e, _, he, h⟩ := run_bind_eq_ok.mp h
    obtain ⟨rfl, rfl⟩ := run_pure_eq_ok.mp h
    cases op <;> exact (expr_run operand he).append (.instr _)
  | .call callee args, h => by
    obtain ⟨argc, _, count, h⟩ := run_bind_eq_ok.mp h
    obtain ⟨c, _, hc, h⟩ := run_bind_eq_ok.mp h
    obtain ⟨a, _, ha, h⟩ := run_bind_eq_ok.mp h
    obtain ⟨rfl, rfl⟩ := run_pure_eq_ok.mp h
    obtain ⟨hargc, rfl⟩ := argumentCount_run count
    have piece := (expr_run callee hc).append (exprs_run args ha)
    have piece := piece.append (m := pc + Size.expr callee + Size.exprs args) (.instr (.call argc))
    exact piece.imp fun r ⟨⟨h₁, h₂⟩, h₃⟩ => ⟨h₁, h₂, argc, h₃, hargc⟩
  | .intrinsic i args, h => by
    obtain ⟨argc, _, count, h⟩ := run_bind_eq_ok.mp h
    obtain ⟨a, _, ha, h⟩ := run_bind_eq_ok.mp h
    obtain ⟨rfl, rfl⟩ := run_pure_eq_ok.mp h
    obtain ⟨hargc, rfl⟩ := argumentCount_run count
    have piece := (exprs_run args ha).append (m := pc + Size.exprs args) (.instr (.intrinsic i.id argc))
    exact piece.imp fun r ⟨h₁, h₂⟩ => ⟨h₁, argc, h₂, hargc⟩
  | .index base position, h => by
    obtain ⟨b, _, hb, h⟩ := run_bind_eq_ok.mp h
    obtain ⟨p, _, hp, h⟩ := run_bind_eq_ok.mp h
    obtain ⟨rfl, rfl⟩ := run_pure_eq_ok.mp h
    have piece := (expr_run base hb).append (expr_run position hp)
    have piece := piece.append (m := pc + Size.expr base + Size.expr position) (.instr .index)
    exact piece.imp fun r ⟨⟨h₁, h₂⟩, h₃⟩ => ⟨h₁, h₂, h₃⟩
  | .list items, h => by
    obtain ⟨count, _, elements, h⟩ := run_bind_eq_ok.mp h
    obtain ⟨a, _, ha, h⟩ := run_bind_eq_ok.mp h
    obtain ⟨rfl, rfl⟩ := run_pure_eq_ok.mp h
    obtain ⟨hcount, rfl⟩ := elementCount_run elements
    have piece := (exprs_run items ha).append (m := pc + Size.exprs items) (.instr (.makeList count))
    exact piece.imp fun r ⟨h₁, h₂⟩ => ⟨h₁, count, h₂, hcount⟩
  | .branch condition body otherwise, h => by
    obtain ⟨c, _, hc, h⟩ := run_bind_eq_ok.mp h
    obtain ⟨b, _, hb, h⟩ := run_bind_eq_ok.mp h
    obtain ⟨o, _, ho, h⟩ := run_bind_eq_ok.mp h
    obtain ⟨other, _, otherTarget, h⟩ := run_bind_eq_ok.mp h
    obtain ⟨done, _, doneTarget, h⟩ := run_bind_eq_ok.mp h
    obtain ⟨rfl, rfl⟩ := run_pure_eq_ok.mp h
    obtain ⟨hother, rfl⟩ := target_run otherTarget
    obtain ⟨hdone, rfl⟩ := target_run doneTarget
    let start := pc + Size.expr condition + 1
    have piece := (expr_run condition hc).append (m := pc + Size.expr condition) (.branch hother)
    have piece := piece.append (m := start) (block_run body hb)
    have piece := piece.append (m := start + Size.block body) (.jump hdone)
    have piece := piece.append (m := start + Size.block body + 1) (block_run otherwise ho)
    refine piece.cast rfl (by simp only [Size.expr]; omega) ?_
    rintro r ⟨⟨⟨⟨h₁, h₂⟩, h₃⟩, h₄⟩, h₅⟩
    exact ⟨h₁, h₂, h₃, h₄, h₅⟩
  | .block b, h => block_run b h

theorem exprs_run {ctx : Context} {pc : Nat} {t t' : Tables} {code : List Instr} : (es : List Bound.Expr) →
    (exprs ctx pc es).run t = .ok (code, t') → Piece t pc (Size.exprs es) code t' fun r => Stands.exprs r ctx.loop pc es
  | [], h => by
    obtain ⟨rfl, rfl⟩ := run_pure_eq_ok.mp h
    exact .nil
  | e :: es, h => by
    obtain ⟨first, _, hfirst, h⟩ := run_bind_eq_ok.mp h
    obtain ⟨rest, _, hrest, h⟩ := run_bind_eq_ok.mp h
    obtain ⟨rfl, rfl⟩ := run_pure_eq_ok.mp h
    exact (expr_run e hfirst).append (exprs_run es hrest)

theorem stmt_run {ctx : Context} {pc : Nat} {t t' : Tables} {code : List Instr} : (s : Bound.Stmt) →
    (stmt ctx pc s).run t = .ok (code, t') → Piece t pc (Size.stmt s) code t' fun r => Stands.stmt r ctx.loop pc s
  | .store place value line, h => by
    obtain ⟨_, _, hline, h⟩ := run_bind_eq_ok.mp h
    obtain ⟨v, _, hv, h⟩ := run_bind_eq_ok.mp h
    obtain ⟨p, _, hp, h⟩ := run_bind_eq_ok.mp h
    obtain ⟨rfl, rfl⟩ := run_pure_eq_ok.mp h
    exact .after (setLine_run hline) ((expr_run value hv).append (store_run hp))
  | .setIndex base position value line, h => by
    obtain ⟨_, _, hline, h⟩ := run_bind_eq_ok.mp h
    obtain ⟨b, _, hb, h⟩ := run_bind_eq_ok.mp h
    obtain ⟨p, _, hp, h⟩ := run_bind_eq_ok.mp h
    obtain ⟨v, _, hv, h⟩ := run_bind_eq_ok.mp h
    obtain ⟨rfl, rfl⟩ := run_pure_eq_ok.mp h
    have piece := ((expr_run base hb).append (expr_run position hp)).append (expr_run value hv)
    have piece := piece.append (m := pc + Size.expr base + Size.expr position + Size.expr value) (.instr .setIndex)
    exact .after (setLine_run hline) (piece.imp fun r ⟨⟨⟨h₁, h₂⟩, h₃⟩, h₄⟩ => ⟨h₁, h₂, h₃, h₄⟩)
  | .eval e line, h => by
    obtain ⟨_, _, hline, h⟩ := run_bind_eq_ok.mp h
    obtain ⟨v, _, hv, h⟩ := run_bind_eq_ok.mp h
    obtain ⟨rfl, rfl⟩ := run_pure_eq_ok.mp h
    exact .after (setLine_run hline) ((expr_run e hv).append (.instr .pop))
  | .ret value line, h => by
    obtain ⟨_, _, hline, h⟩ := run_bind_eq_ok.mp h
    obtain ⟨v, _, hv, h⟩ := run_bind_eq_ok.mp h
    obtain ⟨rfl, rfl⟩ := run_pure_eq_ok.mp h
    exact .after (setLine_run hline) ((expr_run value hv).append (.instr .ret))
  | .loop condition body line, h => by
    obtain ⟨_, _, hline, h⟩ := run_bind_eq_ok.mp h
    obtain ⟨c, _, hc, h⟩ := run_bind_eq_ok.mp h
    obtain ⟨b, _, hb, h⟩ := run_bind_eq_ok.mp h
    obtain ⟨again, _, againTarget, h⟩ := run_bind_eq_ok.mp h
    obtain ⟨out, _, outTarget, h⟩ := run_bind_eq_ok.mp h
    obtain ⟨rfl, rfl⟩ := run_pure_eq_ok.mp h
    obtain ⟨hagain, rfl⟩ := target_run againTarget
    obtain ⟨hout, rfl⟩ := target_run outTarget
    let start := pc + Size.expr condition + 1
    have piece := (expr_run condition hc).append (m := pc + Size.expr condition) (.branch hout)
    have piece := piece.append (m := start) (block_run body hb)
    have piece := piece.append (m := start + Size.block body) (.instr .pop)
    have piece := piece.append (m := start + Size.block body + 1) (.jump hagain)
    refine .after (setLine_run hline) (piece.cast (by simp) (by simp only [Size.stmt]; omega) ?_)
    rintro r ⟨⟨⟨⟨h₁, h₂⟩, h₃⟩, h₄⟩, h₅⟩
    exact ⟨h₁, h₂, h₃, h₄, h₅⟩
  | .leave line, h => by
    obtain ⟨_, _, hline, h⟩ := run_bind_eq_ok.mp h
    cases hloop : ctx.loop with
    | none =>
      rw [hloop] at h
      cases h
    | some targets =>
      rw [hloop] at h
      obtain ⟨x, _, target, h⟩ := run_bind_eq_ok.mp h
      obtain ⟨rfl, rfl⟩ := run_pure_eq_ok.mp h
      obtain ⟨hx, rfl⟩ := target_run target
      exact .after (setLine_run hline) ((Piece.jump hx).imp fun r hr => ⟨targets, rfl, hr⟩)
  | .next line, h => by
    obtain ⟨_, _, hline, h⟩ := run_bind_eq_ok.mp h
    cases hloop : ctx.loop with
    | none =>
      rw [hloop] at h
      cases h
    | some targets =>
      rw [hloop] at h
      obtain ⟨x, _, target, h⟩ := run_bind_eq_ok.mp h
      obtain ⟨rfl, rfl⟩ := run_pure_eq_ok.mp h
      obtain ⟨hx, rfl⟩ := target_run target
      exact .after (setLine_run hline) ((Piece.jump hx).imp fun r hr => ⟨targets, rfl, hr⟩)

theorem stmts_run {ctx : Context} {pc : Nat} {t t' : Tables} {code : List Instr} : (ss : List Bound.Stmt) →
    (stmts ctx pc ss).run t = .ok (code, t') → Piece t pc (Size.stmts ss) code t' fun r => Stands.stmts r ctx.loop pc ss
  | [], h => by
    obtain ⟨rfl, rfl⟩ := run_pure_eq_ok.mp h
    exact .nil
  | s :: ss, h => by
    obtain ⟨first, _, hfirst, h⟩ := run_bind_eq_ok.mp h
    obtain ⟨rest, _, hrest, h⟩ := run_bind_eq_ok.mp h
    obtain ⟨rfl, rfl⟩ := run_pure_eq_ok.mp h
    exact (stmt_run s hfirst).append (stmts_run ss hrest)

theorem tail_run {ctx : Context} {pc : Nat} {t t' : Tables} {code : List Instr} : (e : Bound.Tail) →
    (tail ctx pc e).run t = .ok (code, t') → Piece t pc (Size.tail e) code t' fun r => Stands.tail r ctx.loop pc e
  | .nothing, h => by
    obtain ⟨rfl, rfl⟩ := run_pure_eq_ok.mp h
    exact .instr .unit
  | .value e line, h => by
    obtain ⟨_, _, hline, h⟩ := run_bind_eq_ok.mp h
    exact .after (setLine_run hline) (expr_run e h)

theorem block_run {ctx : Context} {pc : Nat} {t t' : Tables} {code : List Instr} : (b : Bound.Block) →
    (block ctx pc b).run t = .ok (code, t') → Piece t pc (Size.block b) code t' fun r => Stands.block r ctx.loop pc b
  | .mk body last, h => by
    obtain ⟨b, _, hb, h⟩ := run_bind_eq_ok.mp h
    obtain ⟨e, _, he, h⟩ := run_bind_eq_ok.mp h
    obtain ⟨rfl, rfl⟩ := run_pure_eq_ok.mp h
    exact (stmts_run body hb).append (tail_run last he)

end

/-! ### Routines and images -/

/-- The record that the function at a position opens: only the entry routine of a submission does. -/
def opening? (p : Bound.Program) (index : Nat) : Option Nat := if p.entry = some index then p.record else none

namespace Size

/-- The number of instructions before the body of a function. -/
def opening (p : Bound.Program) (index : Nat) : Nat :=
  if (opening? p index).isSome then p.functionSlots.length * 2 + 1 else 0

end Size

namespace Stands

/-- The functions of a unit are stored into its record from `pc` on. -/
def stores (r : Routine) (record pc : Nat) : List Bound.FunctionSlot → Prop
  | [] => True
  | s :: ss =>
    (∃ i, r.Holds pc (.loadFunction i) ∧ i.toNat = s.function) ∧ r.StoresAt (pc + 1) (.slot record s.slot) ∧
      stores r record (pc + 2) ss

/-- What stands before the body of the function at a position. -/
def opening (r : Routine) (p : Bound.Program) (index : Nat) : Prop :=
  ∀ record, opening? p index = some record → r.Holds 0 .openRecord ∧ stores r record 1 p.functionSlots

/-- A routine is the code of the function at a position of a unit. -/
structure function (r : Routine) (p : Bound.Program) (index : Nat) (f : Bound.Func) : Prop where
  name : r.name = f.name
  arity : r.arity.toNat = f.arity
  locals : r.locals.toNat = f.locals
  opening : opening r p index
  body : block r none (Size.opening p index) f.body
  last : r.Holds (Size.opening p index + Size.block f.body) .ret
  size : r.code.size = Size.opening p index + Size.block f.body + 1

/-- The routines of an image are the code of a unit's functions. -/
structure unit (image : Image) (p : Bound.Program) : Prop where
  size : image.functions.size = p.functions.length
  function : ∀ {index : Nat} {f : Bound.Func} {r : Routine}, p.functions[index]? = some f →
    image.functions[index]? = some r → function r p index f

end Stands

section
variable {t t' : Tables} {p : Bound.Program} {code : List Instr}

theorem prologue_run {record pc : Nat} {ss : List Bound.FunctionSlot} (h : (prologue record ss).run t = .ok (code, t')) :
    Piece t pc (ss.length * 2) code t' fun r => Stands.stores r record pc ss := by
  induction ss generalizing pc code t t' with
  | nil =>
    obtain ⟨rfl, rfl⟩ := run_pure_eq_ok.mp h
    exact .nil
  | cons s ss ih =>
    obtain ⟨f, _, function, h⟩ := run_bind_eq_ok.mp h
    obtain ⟨w, _, record, h⟩ := run_bind_eq_ok.mp h
    obtain ⟨i, _, slot, h⟩ := run_bind_eq_ok.mp h
    obtain ⟨rest, _, hrest, h⟩ := run_bind_eq_ok.mp h
    obtain ⟨rfl, rfl⟩ := run_pure_eq_ok.mp h
    obtain ⟨hf, rfl⟩ := narrow_run function
    obtain ⟨hw, rfl⟩ := recordIndex_run record
    obtain ⟨hi, rfl⟩ := narrow_run slot
    have stored : Piece _ (pc + 1) _ _ _ _ := (Piece.instr (.storeSlot w i)).append (m := pc + 2) (ih hrest)
    have piece : Piece _ pc _ _ _ _ := (Piece.instr (.loadFunction f)).append stored
    refine piece.cast rfl (by simp only [List.length_cons]; omega) ?_
    rintro r ⟨h₁, h₂, h₃⟩
    exact ⟨⟨f, h₁, hf⟩, ⟨w, i, h₂, hw, hi⟩, h₃⟩

theorem prologueOf_run {index : Nat} (h : (prologueOf p index).run t = .ok (code, t')) :
    Piece t 0 (Size.opening p index) code t' fun r => Stands.opening r p index := by
  unfold prologueOf at h
  unfold Size.opening Stands.opening opening?
  cases hrecord : p.record with
  | none =>
    rw [hrecord] at h
    obtain ⟨rfl, rfl⟩ := run_pure_eq_ok.mp h
    simpa using Piece.nil.imp fun _ _ => by simp
  | some record =>
    rw [hrecord] at h
    simp only at h
    by_cases hentry : p.entry = some index
    · rw [if_pos hentry] at h
      obtain ⟨rest, _, hrest, h⟩ := run_bind_eq_ok.mp h
      obtain ⟨rfl, rfl⟩ := run_pure_eq_ok.mp h
      have piece : Piece _ 0 _ _ _ _ := (Piece.instr .openRecord).append (m := 1) (prologue_run hrest)
      rw [if_pos hentry]
      refine piece.cast rfl (by simp [Nat.add_comm]) ?_
      rintro r ⟨h₁, h₂⟩ _ hopen
      cases hopen
      exact ⟨h₁, h₂⟩
    · rw [if_neg hentry] at h
      obtain ⟨rfl, rfl⟩ := run_pure_eq_ok.mp h
      simpa [hentry] using Piece.nil.imp fun _ _ => by simp

theorem routineCode_run {index : Nat} {f : Bound.Func} (h : (routineCode p index f).run t = .ok (code, t')) :
    Piece t 0 (Size.opening p index + Size.block f.body + 1) code t' fun r =>
      (Stands.opening r p index ∧ Stands.block r none (Size.opening p index) f.body) ∧
        r.Holds (Size.opening p index + Size.block f.body) .ret := by
  obtain ⟨_, _, hline, h⟩ := run_bind_eq_ok.mp h
  obtain ⟨start, _, hstart, h⟩ := run_bind_eq_ok.mp h
  obtain ⟨body, _, hbody, h⟩ := run_bind_eq_ok.mp h
  obtain ⟨rfl, rfl⟩ := run_pure_eq_ok.mp h
  have opens := prologueOf_run hstart
  rw [opens.length] at hbody
  have piece := opens.append (m := Size.opening p index) (block_run f.body hbody)
  exact .after (setLine_run hline) (piece.append (m := Size.opening p index + Size.block f.body) (.instr .ret))

end

/-- What a routine is made of: its code, and the tables that were filled with it. -/
theorem routine_eq_ok {p : Bound.Program} {index : Nat} {f : Bound.Func} {r : Routine} (h : routine p index f = .ok r) :
    f.arity ≤ argumentLimit ∧ f.locals ≤ wordLimit ∧
      ∃ code tables, (routineCode p index f).run ⟨#[], [], none⟩ = .ok (code, tables) ∧
        r = ⟨f.name, UInt8.ofNat f.arity, UInt16.ofNat f.locals, tables.constants, code.toArray, tables.lines⟩ := by
  unfold routine at h
  by_cases harity : f.arity > argumentLimit
  · rw [if_pos harity] at h
    cases h
  by_cases hlocals : f.locals > wordLimit
  · rw [if_neg harity, if_pos hlocals] at h
    cases h
  rw [if_neg harity, if_neg hlocals] at h
  obtain ⟨⟨code, tables⟩, hcode, h⟩ := except_bind_eq_ok.mp h
  cases h
  exact ⟨Nat.not_lt.mp harity, Nat.not_lt.mp hlocals, code, tables, hcode, rfl⟩

theorem routine_stands {p : Bound.Program} {index : Nat} {f : Bound.Func} {r : Routine}
    (h : routine p index f = .ok r) : Stands.function r p index f := by
  obtain ⟨harity, hlocals, code, tables, hcode, rfl⟩ := routine_eq_ok h
  have piece := routineCode_run hcode
  obtain ⟨⟨opening, body⟩, last⟩ := piece.stands
    ⟨f.name, UInt8.ofNat f.arity, UInt16.ofNat f.locals, tables.constants, code.toArray, tables.lines⟩
    (fun k i hk => by simpa [Routine.Holds] using hk) List.prefix_rfl
  exact {
    name := rfl
    arity := UInt8.toNat_ofNat_of_lt' (Nat.lt_succ_of_le harity)
    locals := UInt16.toNat_ofNat_of_lt' (Nat.lt_succ_of_le hlocals)
    opening := opening
    body := body
    last := last
    size := by simpa using piece.length }

/-- Routines are emitted from the functions at the same positions. -/
theorem routines_eq_ok {p : Bound.Program} {fs : List Bound.Func} {start : Nat} {rs : List Routine}
    (h : routines p fs start = .ok rs) : rs.length = fs.length ∧ ∀ {k : Nat} {f : Bound.Func} {r : Routine},
      fs[k]? = some f → rs[k]? = some r → routine p (start + k) f = .ok r := by
  induction fs generalizing start rs with
  | nil =>
    cases h
    exact ⟨rfl, fun hf => by simp at hf⟩
  | cons f fs ih =>
    obtain ⟨r, hr, h⟩ := except_bind_eq_ok.mp h
    obtain ⟨rest, hrest, h⟩ := except_bind_eq_ok.mp h
    cases h
    obtain ⟨length, emitted⟩ := ih hrest
    refine ⟨by rw [List.length_cons, List.length_cons, length], fun {k} f' r' hf' hr' => ?_⟩
    cases k with
    | zero =>
      cases hf'
      cases hr'
      exact hr
    | succ k =>
      have emitted := emitted (k := k) hf' hr'
      rwa [Nat.add_right_comm] at emitted

/-- The kind of image that a unit is lowered to. -/
def imageKind : UnitKind → ImageKind
  | .script _ => .submission
  | .library _ => .library

/-- The number that the image of a unit has. -/
def imageOrdinal : UnitKind → UInt32
  | .script n => UInt32.ofNat n
  | .library _ => 0

/-- Everything that an image takes from its unit. -/
structure Emitted (unit : UnitKind) (p : Bound.Program) (im : Image) : Prop where
  stands : Stands.unit im p
  kind : im.kind = imageKind unit
  name : im.name = unit.qualifier
  ordinal : im.ordinal = imageOrdinal unit
  slots : im.slots = p.slots
  imports : im.imports = p.imports
  few : im.functions.size ≤ EntryTable.functions.limit
  fewSlots : im.slots.size ≤ EntryTable.slots.limit

theorem checkEntries_eq_ok {table : EntryTable} {count : Nat} {u : Unit} (h : checkEntries table count = .ok u) :
    count ≤ table.limit := by
  unfold checkEntries at h
  split at h
  · assumption
  · cases h

/-- The routines of an image are emitted from the functions of its unit. -/
theorem image_routine {unit : UnitKind} {p : Bound.Program} {im : Image} (h : image unit p = .ok im) {index : Nat}
    {f : Bound.Func} {r : Routine} (hf : p.functions[index]? = some f) (hr : im.functions[index]? = some r) :
    routine p index f = .ok r := by
  obtain ⟨_, -, h⟩ := except_bind_eq_ok.mp h
  obtain ⟨_, -, h⟩ := except_bind_eq_ok.mp h
  obtain ⟨_, -, h⟩ := except_bind_eq_ok.mp h
  obtain ⟨rs, hrs, h⟩ := except_bind_eq_ok.mp h
  cases h
  have emitted := (routines_eq_ok hrs).2 hf (by simpa using hr)
  rwa [Nat.zero_add] at emitted

theorem image_emitted {unit : UnitKind} {p : Bound.Program} {im : Image} (h : image unit p = .ok im) :
    Emitted unit p im := by
  have stands {index : Nat} {f : Bound.Func} {r : Routine} (hf : p.functions[index]? = some f)
      (hr : im.functions[index]? = some r) := routine_stands (image_routine h hf hr)
  obtain ⟨_, few, h⟩ := except_bind_eq_ok.mp h
  obtain ⟨_, -, h⟩ := except_bind_eq_ok.mp h
  obtain ⟨_, fewSlots, h⟩ := except_bind_eq_ok.mp h
  obtain ⟨rs, hrs, h⟩ := except_bind_eq_ok.mp h
  cases h
  have length := (routines_eq_ok hrs).1
  refine ⟨⟨by simpa using length, stands⟩, ?_, rfl, ?_, rfl, rfl, ?_, checkEntries_eq_ok fewSlots⟩
  · cases unit <;> rfl
  · cases unit <;> rfl
  · rw [List.size_toArray, length]
    exact checkEntries_eq_ok few

end Lowering
end ScriptEngine
