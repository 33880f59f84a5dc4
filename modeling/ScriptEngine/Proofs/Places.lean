import ScriptEngine.Proofs.OperandDepth

/-! What a bound unit refers to. Everything in a tree is in scope (`Scoped`) if its places are there, its
    functions and imports are in the tables of the unit, and loop control stands in a loop. The code of a unit
    that is in scope refers to nothing else (`Instr.Fits`). -/

namespace ScriptEngine

/-! ### Scopes -/

namespace Bound

/-- What a function can refer to. -/
structure Scope where
  locals : Nat
  /-- The record of the unit. -/
  record : Option Nat
  /-- The number of slots in that record. -/
  slots : Nat
  /-- What earlier submissions declared. -/
  earlier : List Declared
  functions : Nat
  imports : Nat
  /-- Loop control may stand outside of any loop. -/
  stray : Prop

/-- A place is there: a local, a slot of the unit's own record, or a slot that an earlier submission
    declared. -/
def Place.In (scope : Scope) : Place → Prop
  | .frame index => index < scope.locals
  | .slot record index => scope.record = some record ∧ index < scope.slots ∨
    ∃ d ∈ scope.earlier, d.record = record ∧ ∃ symbol ∈ d.symbols.entries, symbol.slot = index

namespace Scoped

mutual

/-- Everything that an expression refers to is in scope. -/
def expr (scope : Scope) (inLoop : Bool) : Expr → Prop
  | .unit | .int _ | .float _ | .bool _ | .text _ => True
  | .load place => place.In scope
  | .function index => index < scope.functions
  | .imported index => index < scope.imports
  | .both left right | .either left right | .operate _ left right => expr scope inLoop left ∧ expr scope inLoop right
  | .unary _ operand => expr scope inLoop operand
  | .call callee args => expr scope inLoop callee ∧ exprs scope inLoop args
  | .intrinsic _ args => exprs scope inLoop args
  | .index base position => expr scope inLoop base ∧ expr scope inLoop position
  | .list items => exprs scope inLoop items
  | .branch condition body otherwise =>
    expr scope inLoop condition ∧ block scope inLoop body ∧ block scope inLoop otherwise
  | .block b => block scope inLoop b

def exprs (scope : Scope) (inLoop : Bool) : List Expr → Prop
  | [] => True
  | e :: es => expr scope inLoop e ∧ exprs scope inLoop es

def stmt (scope : Scope) (inLoop : Bool) : Stmt → Prop
  | .store place value _ => place.In scope ∧ expr scope inLoop value
  | .setIndex base position value _ =>
    expr scope inLoop base ∧ expr scope inLoop position ∧ expr scope inLoop value
  | .eval e _ => expr scope inLoop e
  | .ret value _ => expr scope inLoop value
  | .loop condition body _ => expr scope inLoop condition ∧ block scope true body
  | .leave _ | .next _ => inLoop = true ∨ scope.stray

def stmts (scope : Scope) (inLoop : Bool) : List Stmt → Prop
  | [] => True
  | s :: ss => stmt scope inLoop s ∧ stmts scope inLoop ss

def tail (scope : Scope) (inLoop : Bool) : Tail → Prop
  | .nothing => True
  | .value e _ => expr scope inLoop e

def block (scope : Scope) (inLoop : Bool) : Block → Prop
  | .mk body last => stmts scope inLoop body ∧ tail scope inLoop last

end

theorem stmts_append {scope : Scope} {inLoop : Bool} {first : Option Stmt} {rest : List Stmt}
    (hfirst : ∀ s ∈ first, stmt scope inLoop s) (hrest : stmts scope inLoop rest) :
    stmts scope inLoop (first.toList ++ rest) := by
  cases first with
  | none => exact hrest
  | some s => exact ⟨hfirst s rfl, hrest⟩

end Scoped

/-- A function whose parameters are locals and whose body is in scope, given the tables of its unit. -/
structure Func.Scoped (scope : Scope) (f : Func) : Prop where
  params : f.arity ≤ f.locals
  body : Scoped.block { scope with locals := f.locals } false f.body

/-- A unit whose functions are in scope, and which stores functions that it has into slots that it has. -/
structure Program.Scoped (scope : Scope) (p : Program) : Prop where
  record : scope.record = p.record
  functions : ∀ f ∈ p.functions, f.Scoped scope
  functionSlots : ∀ s ∈ p.functionSlots, s.function < scope.functions ∧ s.slot < scope.slots

end Bound

/-! ### Code in scope -/

/-- What an instruction refers to is in scope, or one of so many constants. Where jumps go is not asked here. -/
def Instr.Fits (scope : Bound.Scope) (constants : Nat) : Instr → Prop
  | .const i => i.toNat < constants
  | .loadLocal i | .storeLocal i => i.toNat < scope.locals
  | .loadSlot record i | .storeSlot record i => (Bound.Place.slot record.toNat i.toNat).In scope
  | .loadImport i => i.toNat < scope.imports
  | .loadFunction i => i.toNat < scope.functions
  | .openRecord => scope.record.isSome
  | .intrinsic id _ => (Intrinsic.ofId? id).isSome
  | .unit | .bool _ | .binary _ | .neg | .not | .pop | .call _ | .makeList _ | .index | .setIndex | .ret
  | .jump _ | .jumpIfFalse _ => True

/-- What the instruction at an address refers to is there. -/
def Routine.FitsAt (r : Routine) (scope : Bound.Scope) (pc : Nat) : Prop :=
  ∀ i, r.Holds pc i → i.Fits scope r.constants.size

namespace Lowering
open ScriptEngine.Bound

section
variable {r : Routine} {scope : Scope} {pc : Nat}

theorem fits_of_holds {i : Instr} (h : r.Holds pc i) (hi : i.Fits scope r.constants.size := by trivial) :
    r.FitsAt scope pc := by
  intro j hj
  obtain rfl : i = j := Option.some.inj (h.symm.trans hj)
  exact hi

theorem fits_of_jump {target : Nat} (h : r.JumpsAt pc target) : r.FitsAt scope pc := by
  obtain ⟨x, hx, -⟩ := h
  exact fits_of_holds hx

theorem fits_of_branch {target : Nat} (h : r.BranchesAt pc target) : r.FitsAt scope pc := by
  obtain ⟨x, hx, -⟩ := h
  exact fits_of_holds hx

theorem fits_of_constant {c : Constant} (h : r.ConstantAt pc c) : r.FitsAt scope pc := by
  obtain ⟨x, hx, hc⟩ := h
  exact fits_of_holds hx (Array.getElem?_eq_some_iff.mp hc).1

theorem fits_of_load {place : Place} (h : r.LoadsAt pc place) (hplace : place.In scope) : r.FitsAt scope pc := by
  cases place with
  | frame index =>
    obtain ⟨i, hi, rfl⟩ := h
    exact fits_of_holds hi hplace
  | slot record index =>
    obtain ⟨w, i, hi, rfl, rfl⟩ := h
    exact fits_of_holds hi hplace

theorem fits_of_store {place : Place} (h : r.StoresAt pc place) (hplace : place.In scope) : r.FitsAt scope pc := by
  cases place with
  | frame index =>
    obtain ⟨i, hi, rfl⟩ := h
    exact fits_of_holds hi hplace
  | slot record index =>
    obtain ⟨w, i, hi, rfl, rfl⟩ := h
    exact fits_of_holds hi hplace

end

section
variable {r : Routine} {scope : Scope}

mutual

/-- The code of an expression refers to nothing but what the expression does. -/
theorem expr_fits {loop : Option LoopTargets} {inLoop : Bool} {dl d pc : Nat} : (e : Expr) →
    Stands.expr r loop pc e → Scoped.expr scope inLoop e → Along (fun a _ => r.FitsAt scope a) pc (Sites.expr dl d e)
  | .unit, h, _ => ⟨fits_of_holds h, trivial⟩
  | .bool _, h, _ => ⟨fits_of_holds h, trivial⟩
  | .int _, h, _ => ⟨fits_of_constant h, trivial⟩
  | .float _, h, _ => ⟨fits_of_constant h, trivial⟩
  | .text _, h, _ => ⟨fits_of_constant h, trivial⟩
  | .load _, h, hs => ⟨fits_of_load h hs, trivial⟩
  | .function _, ⟨_, h, rfl⟩, hs => ⟨fits_of_holds h hs, trivial⟩
  | .imported _, ⟨_, h, rfl⟩, hs => ⟨fits_of_holds h hs, trivial⟩
  | .both left right, h, hs => by
    obtain ⟨hl, hbl, hr, hbr, htrue, hjump, hfalse⟩ := h
    simp only [Sites.expr, along_append, along_cons, along_nil, Sites.length_expr, and_true]
    exact ⟨expr_fits left hl hs.1, fits_of_branch hbl, expr_fits right hr hs.2, fits_of_branch hbr,
      fits_of_holds htrue, fits_of_jump hjump, fits_of_holds hfalse⟩
  | .either left right, h, hs => by
    obtain ⟨hl, hbl, htrue₁, hjump₁, hr, hbr, htrue₂, hjump₂, hfalse⟩ := h
    simp only [Sites.expr, along_append, along_cons, along_nil, Sites.length_expr, and_true]
    exact ⟨expr_fits left hl hs.1, fits_of_branch hbl, fits_of_holds htrue₁, fits_of_jump hjump₁,
      expr_fits right hr hs.2, fits_of_branch hbr, fits_of_holds htrue₂, fits_of_jump hjump₂,
      fits_of_holds hfalse⟩
  | .operate _ left right, h, hs => by
    obtain ⟨hl, hr, hop⟩ := h
    simp only [Sites.expr, along_append, along_cons, along_nil, Sites.length_expr, and_true]
    exact ⟨expr_fits left hl hs.1, expr_fits right hr hs.2, fits_of_holds hop⟩
  | .unary op operand, h, hs => by
    obtain ⟨he, hop⟩ := h
    simp only [Sites.expr, along_append, along_cons, along_nil, Sites.length_expr, and_true]
    refine ⟨expr_fits operand he hs, ?_⟩
    cases op with
    | neg => exact fits_of_holds (i := .neg) hop
    | not => exact fits_of_holds (i := .not) hop
  | .call callee args, h, hs => by
    obtain ⟨hc, ha, argc, hcall, -⟩ := h
    simp only [Sites.expr, along_append, along_cons, along_nil, Sites.length_expr, Sites.length_exprs, and_true]
    exact ⟨expr_fits callee hc hs.1, exprs_fits args ha hs.2, fits_of_holds hcall⟩
  | .intrinsic i args, h, hs => by
    obtain ⟨ha, argc, hcall, -⟩ := h
    have known : (Intrinsic.ofId? i.id).isSome := by
      rw [Intrinsic.ofId?_id]
      rfl
    simp only [Sites.expr, along_append, along_cons, along_nil, Sites.length_exprs, and_true]
    exact ⟨exprs_fits args ha hs, fits_of_holds hcall known⟩
  | .index base position, h, hs => by
    obtain ⟨hb, hp, hindex⟩ := h
    simp only [Sites.expr, along_append, along_cons, along_nil, Sites.length_expr, and_true]
    exact ⟨expr_fits base hb hs.1, expr_fits position hp hs.2, fits_of_holds hindex⟩
  | .list items, h, hs => by
    obtain ⟨hi, count, hlist, -⟩ := h
    simp only [Sites.expr, along_append, along_cons, along_nil, Sites.length_exprs, and_true]
    exact ⟨exprs_fits items hi hs, fits_of_holds hlist⟩
  | .branch condition body otherwise, h, hs => by
    obtain ⟨hc, hbranch, hb, hjump, ho⟩ := h
    simp only [Sites.expr, along_append, along_cons, Sites.length_expr, Sites.length_block]
    exact ⟨expr_fits condition hc hs.1, fits_of_branch hbranch, block_fits body hb hs.2.1, fits_of_jump hjump,
      block_fits otherwise ho hs.2.2⟩
  | .block b, h, hs => block_fits b h hs

theorem exprs_fits {loop : Option LoopTargets} {inLoop : Bool} {dl d pc : Nat} : (es : List Expr) →
    Stands.exprs r loop pc es → Scoped.exprs scope inLoop es →
    Along (fun a _ => r.FitsAt scope a) pc (Sites.exprs dl d es)
  | [], _, _ => trivial
  | e :: es, h, hs => by
    simp only [Sites.exprs, along_append, Sites.length_expr]
    exact ⟨expr_fits e h.1 hs.1, exprs_fits es h.2 hs.2⟩

theorem stmt_fits {loop : Option LoopTargets} {inLoop : Bool} {dl d pc : Nat} : (s : Stmt) →
    Stands.stmt r loop pc s → Scoped.stmt scope inLoop s → Along (fun a _ => r.FitsAt scope a) pc (Sites.stmt dl d s)
  | .store place value _, h, hs => by
    simp only [Sites.stmt, along_append, along_cons, along_nil, Sites.length_expr, and_true]
    exact ⟨expr_fits value h.1 hs.2, fits_of_store h.2 hs.1⟩
  | .setIndex base position value _, h, hs => by
    obtain ⟨hb, hp, hv, hset⟩ := h
    simp only [Sites.stmt, along_append, along_cons, along_nil, Sites.length_expr, and_true]
    exact ⟨expr_fits base hb hs.1, expr_fits position hp hs.2.1, expr_fits value hv hs.2.2, fits_of_holds hset⟩
  | .eval e _, h, hs => by
    simp only [Sites.stmt, along_append, along_cons, along_nil, Sites.length_expr, and_true]
    exact ⟨expr_fits e h.1 hs, fits_of_holds h.2⟩
  | .ret value _, h, hs => by
    simp only [Sites.stmt, along_append, along_cons, along_nil, Sites.length_expr, and_true]
    exact ⟨expr_fits value h.1 hs, fits_of_holds h.2⟩
  | .loop condition body _, h, hs => by
    obtain ⟨hc, hbranch, hb, hpop, hjump⟩ := h
    simp only [Sites.stmt, along_append, along_cons, along_nil, Sites.length_expr, Sites.length_block, and_true]
    exact ⟨expr_fits condition hc hs.1, fits_of_branch hbranch, block_fits body hb hs.2, fits_of_holds hpop,
      fits_of_jump hjump⟩
  | .leave _, ⟨_, _, h⟩, _ => ⟨fits_of_jump h, trivial⟩
  | .next _, ⟨_, _, h⟩, _ => ⟨fits_of_jump h, trivial⟩

theorem stmts_fits {loop : Option LoopTargets} {inLoop : Bool} {dl d pc : Nat} : (ss : List Stmt) →
    Stands.stmts r loop pc ss → Scoped.stmts scope inLoop ss →
    Along (fun a _ => r.FitsAt scope a) pc (Sites.stmts dl d ss)
  | [], _, _ => trivial
  | s :: ss, h, hs => by
    simp only [Sites.stmts, along_append, Sites.length_stmt]
    exact ⟨stmt_fits s h.1 hs.1, stmts_fits ss h.2 hs.2⟩

theorem tail_fits {loop : Option LoopTargets} {inLoop : Bool} {dl d pc : Nat} : (t : Tail) →
    Stands.tail r loop pc t → Scoped.tail scope inLoop t → Along (fun a _ => r.FitsAt scope a) pc (Sites.tail dl d t)
  | .nothing, h, _ => ⟨fits_of_holds h, trivial⟩
  | .value e _, h, hs => expr_fits e h hs

theorem block_fits {loop : Option LoopTargets} {inLoop : Bool} {dl d pc : Nat} : (b : Block) →
    Stands.block r loop pc b → Scoped.block scope inLoop b →
    Along (fun a _ => r.FitsAt scope a) pc (Sites.block dl d b)
  | .mk body last, h, hs => by
    simp only [Sites.block, along_append, Sites.length_stmts]
    exact ⟨stmts_fits body h.1 hs.1, tail_fits last h.2 hs.2⟩

end

theorem stores_fits {record : Nat} (hrecord : scope.record = some record) {ss : List FunctionSlot}
    (hss : ∀ s ∈ ss, s.function < scope.functions ∧ s.slot < scope.slots) {pc : Nat}
    (h : Stands.stores r record pc ss) : Along (fun a _ => r.FitsAt scope a) pc (Sites.stores ss) := by
  induction ss generalizing pc with
  | nil => trivial
  | cons s ss ih =>
    obtain ⟨⟨f, hf, hindex⟩, hstore, hrest⟩ := h
    obtain ⟨hfunction, hslot⟩ := hss s (.head _)
    rw [← hindex] at hfunction
    exact ⟨fits_of_holds hf hfunction, fits_of_store hstore (.inl ⟨hrecord, hslot⟩),
      ih (fun s hs => hss s (.tail _ hs)) hrest⟩

/-- The code of a function refers to nothing but what its body does, and to the slots of the record it opens. -/
theorem function_fits {p : Bound.Program} {index : Nat} {f : Func} (h : Stands.function r p index f)
    (hp : p.Scoped scope) (hf : f.Scoped scope) {pc : Nat} {i : Instr} (hi : r.Holds pc i) :
    i.Fits { scope with locals := f.locals } r.constants.size := by
  have fits : Along (fun a _ => r.FitsAt { scope with locals := f.locals } a) 0 (Sites.function p index f) := by
    rw [Sites.function, along_append, along_append, Nat.zero_add, Sites.length_opening, Sites.length_block]
    refine ⟨?_, block_fits f.body h.body hf.body, fits_of_holds h.last, trivial⟩
    cases hopening : opening? p index with
    | none =>
      simp only [Sites.opening, hopening]
      trivial
    | some record =>
      obtain ⟨hopen, hstores⟩ := h.opening record hopening
      have hrecord : Scope.record { scope with locals := f.locals } = some record := by
        unfold opening? at hopening
        split at hopening
        · exact hp.record.trans hopening
        · cases hopening
      have opened : (Scope.record { scope with locals := f.locals }).isSome := hrecord ▸ rfl
      simp only [Sites.opening, hopening, Option.isSome_some, if_true]
      exact ⟨fits_of_holds hopen opened, stores_fits hrecord hp.functionSlots hstores⟩
  have hlt : pc < (Sites.function p index f).length := by
    rw [(function_flows h).size]
    exact (Array.getElem?_eq_some_iff.mp hi).1
  have fit := along_iff.mp fits pc _ (List.getElem?_eq_getElem hlt)
  rw [Nat.zero_add] at fit
  exact fit i hi

end
end Lowering
end ScriptEngine
