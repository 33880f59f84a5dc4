import ScriptEngine.Proofs.BoundOperations
import ScriptEngine.Proofs.DeadCode

/-! Which code is flagged. As unreachable, in a block that is the first statement, functions apart, behind one that control
    never passes, or else the value of the block (`Tree.Block.unreachable?`); as a division by zero, a division by a zero that
    is written in the source. Binding flags nothing else (`Binder.warns_block`). Without errors the blocks of a bound tree are
    those of the source, in the same order, each bound from its own one and with its operations (`Binder.yields_blocks`). -/

namespace ScriptEngine

namespace Tree

def Stmt.isFunction : Stmt → Bool
  | .func .. => true
  | _ => false

/-- The first of these statements that control cannot come to, functions apart, or else the value behind them: its
    position, the first statement having position `k`, and its place in the source. -/
def unreachable? (k : Nat) (diverged : Bool) (last : Option Expr) : List Stmt → Option (Nat × Span)
  | [] => if diverged then last.map fun e => (k, e.span) else none
  | s :: ss =>
    if diverged && !s.isFunction then some (k, s.span)
    else unreachable? (k + 1) (diverged || s.diverges) last ss

/-- What is flagged in a block. -/
def Block.unreachable? : Block → Option (Nat × Span)
  | mk body last _ => Tree.unreachable? 0 false last body

namespace Blocks

mutual

/-- The blocks in an expression. -/
def expr : Expr → List Block
  | .name _ | .path .. | .literal .. => []
  | .binary _ left right _ | .index left right _ => expr left ++ expr right
  | .unary _ operand _ => expr operand
  | .call callee args _ => expr callee ++ exprs args
  | .list items _ => exprs items
  | .branch b => branch b
  | .block b => block b

def exprs : List Expr → List Block
  | [] => []
  | e :: es => expr e ++ exprs es

def branch : Branch → List Block
  | .mk condition body other _ => expr condition ++ block body ++ otherwise other

/-- What is missing counts as an empty block, and another condition as the value of a block. -/
def otherwise : Otherwise → List Block
  | .nothing => [.mk [] none ⟨0, 0⟩]
  | .block b => block b
  | .branch b => .mk [] (some (.branch b)) b.span :: branch b

/-- Functions are not part of the block that they stand in. -/
def stmt : Stmt → List Block
  | .bind _ _ value _ | .ret value _ => optional value
  | .assign _ value _ | .eval value => expr value
  | .setIndex base position value _ => expr base ++ expr position ++ expr value
  | .loop condition body _ => expr condition ++ block body
  | .func .. | .leave _ | .next _ => []

def stmts : List Stmt → List Block
  | [] => []
  | s :: ss => stmt s ++ stmts ss

def optional : Option Expr → List Block
  | none => []
  | some e => expr e

def block : Block → List Block
  | .mk body last span => .mk body last span :: (stmts body ++ optional last)

end

end Blocks
end Tree

namespace Binder
open Lowering

/-! ### Messages -/

/-- Every new message has a property. -/
def Warns {α : Type} (P : Diagnostic → Prop) (x : Bind α) : Prop :=
  ∀ s, ∀ d ∈ (x.run s).2.diagnostics, d ∈ s.diagnostics ∨ P d

section
variable {α β : Type} {P : Diagnostic → Prop} {x y : Bind α} {f : α → Bind β}

theorem warns_pure {a : α} : Warns P (pure a) := fun _ _ hd => .inl hd

theorem warns_bind (hx : Warns P x) (hf : ∀ a, Warns P (f a)) : Warns P (x >>= f) := fun s d hd =>
  (hf _ _ d hd).elim (hx s d) .inr

/-- What is done with a result may depend on what is known of it. -/
theorem warns_known {Q : α → Prop} (hx : Warns P x) (known : ∀ s, Q (x.run s).1) (hf : ∀ a, Q a → Warns P (f a)) :
    Warns P (x >>= f) := fun s d hd => (hf _ (known s) _ d hd).elim (hx s d) .inr

theorem warns_get {f : State → Bind α} (h : ∀ s, Warns P (f s)) : Warns P (get >>= f) := fun s => h s s

theorem warns_modify {g : State → State} (hg : ∀ s, (g s).diagnostics = s.diagnostics) : Warns P (modify g) :=
  fun s _ hd => .inl (hg s ▸ hd)

theorem warns_ite {c : Prop} [Decidable c] (hx : Warns P x) (hy : Warns P y) : Warns P (if c then x else y) := by
  split
  · exact hx
  · exact hy

theorem warns_forM {l : List α} {g : α → Bind Unit} (h : ∀ a, Warns P (g a)) : Warns P (l.forM g) := by
  induction l with
  | nil => exact warns_pure
  | cons a l ih => exact warns_bind (h a) fun _ => ih

end

/-- In one of the blocks this is what is unreachable. -/
def Unreachable (blocks : List Tree.Block) (span : Span) : Prop := ∃ t ∈ blocks, ∃ k, t.unreachable? = some (k, span)

/-- In one of the blocks there is a division by a zero that is written at this place. -/
def DividesByZero (blocks : List Tree.Block) (op : BinaryOp) (span : Span) : Prop :=
  ∃ t ∈ blocks, ∃ left, (op = .div ∨ op = .rem) ∧ ⟨op, left, .literal (.int 0) span⟩ ∈ t.operations

/-- A message flags nothing as unreachable but what is so in one of the blocks, and nothing as a division by zero but what
    is one there. -/
structure Justified (blocks : List Tree.Block) (d : Diagnostic) : Prop where
  unreachable : d.notice = .unreachableCode → Unreachable blocks d.span
  division : ∀ op, d.notice = .divideByZero op → DividesByZero blocks op d.span

section
variable {α : Type} {ctx : Context} {all : List Tree.Block} {x : Bind α} {notice : Notice} {span : Span}

theorem warns_report (unreachable : notice = .unreachableCode → Unreachable all span)
    (division : ∀ op, notice = .divideByZero op → DividesByZero all op span) :
    Warns (Justified all) (report ctx notice span) := by
  intro s d hd
  rcases Array.mem_push.mp hd with hd | rfl
  · exact .inl hd
  · exact .inr ⟨unreachable, division⟩

/-- A message about something else. -/
theorem warns_other (h : notice ≠ .unreachableCode) (h' : ∀ op, notice ≠ .divideByZero op) :
    Warns (Justified all) (report ctx notice span) :=
  warns_report (fun heq => absurd heq h) fun op heq => absurd heq (h' op)

theorem warns_reported (h : notice ≠ .unreachableCode) (h' : ∀ op, notice ≠ .divideByZero op)
    (hx : Warns (Justified all) x) : Warns (Justified all) (report ctx notice span >>= fun _ => x) :=
  warns_bind (warns_other h h') fun _ => hx

theorem warns_closeScope : Warns (Justified all) (closeScope ctx) :=
  warns_get fun _ => warns_bind (warns_modify fun _ => rfl) fun _ => warns_forM fun _ =>
    warns_ite warns_pure (warns_other nofun nofun)

theorem warns_inScope (hx : Warns (Justified all) x) : Warns (Justified all) (inScope ctx x) :=
  warns_bind (warns_modify fun _ => rfl) fun _ => warns_bind hx fun _ => warns_bind warns_closeScope fun _ => warns_pure

theorem warns_resolveRead {name : String} : Warns (Justified all) (resolveRead ctx name) :=
  warns_get fun _ => warns_bind (warns_modify fun _ => rfl) fun _ => warns_pure

theorem warns_resolvePath {library member : Ident} : Warns (Justified all) (resolvePath ctx library member) := by
  unfold resolvePath
  refine warns_ite ?_ ?_
  · split
    · exact warns_pure
    · exact warns_reported nofun nofun warns_pure
  · split
    · exact warns_reported nofun nofun warns_pure
    · split
      · exact warns_pure
      · exact warns_reported nofun nofun warns_pure

theorem warns_importIndex {ref : ImportRef} : Warns (Justified all) (importIndex ref) := by
  refine warns_get fun s => ?_
  split
  · exact warns_pure
  · exact warns_get fun _ => warns_bind (warns_modify fun _ => rfl) fun _ => warns_pure

theorem warns_nameValue {ident : Ident} : (res : Resolution) → Warns (Justified all) (nameValue ctx ident res)
  | .variable _ | .function _ _ | .slot _ _ _ => warns_pure
  | .imported _ _ => warns_bind warns_importIndex fun _ => warns_pure
  | .intrinsic _ | .ambiguous _ | .unknown => warns_reported nofun nofun warns_pure

theorem warns_pathValue {member : Ident} : (res : Resolution) → Warns (Justified all) (pathValue ctx member res)
  | .imported _ _ => warns_bind warns_importIndex fun _ => warns_pure
  | .intrinsic _ => warns_reported nofun nofun warns_pure
  | .variable _ | .function _ _ | .slot _ _ _ | .ambiguous _ | .unknown => warns_pure

theorem warns_checkArity {callee : String} {r : Resolution} {given : Nat} {span : Span} :
    Warns (Justified all) (checkArity ctx callee r given span) := by
  unfold checkArity
  split
  · exact warns_ite warns_pure (warns_other nofun nofun)
  · exact warns_pure

theorem warns_declareLocal {name : Ident} {mutable : Bool} : Warns (Justified all) (declareLocal name mutable) :=
  warns_get fun _ => warns_bind (warns_modify fun _ => rfl) fun _ => warns_pure

theorem warns_declareSymbol {name : Ident} {kind : SymbolKind} : Warns (Justified all) (declareSymbol name kind) :=
  warns_get fun _ => warns_bind (warns_modify fun _ => rfl) fun _ => warns_pure

theorem warns_bindSlot {name : Ident} {mutable : Bool} {value : Option Bound.Expr} {line : Nat} :
    Warns (Justified all) (bindSlot ctx name mutable value line) := by
  refine warns_get fun s => ?_
  dsimp only
  split
  · exact warns_reported nofun nofun warns_pure
  · refine warns_bind warns_declareSymbol fun slot => ?_
    split
    all_goals exact warns_pure

theorem warns_bindVariable {name : Ident} {mutable : Bool} {value : Option Bound.Expr} {line : Nat} :
    Warns (Justified all) (bindVariable ctx name mutable value line) :=
  warns_get fun _ => warns_ite warns_bindSlot (warns_bind warns_declareLocal fun _ => warns_pure)

theorem warns_assignPlace {target : Ident} : (res : Resolution) → Warns (Justified all) (assignPlace ctx target res)
  | .variable _ | .slot _ _ (.variable _) => warns_ite (warns_reported nofun nofun warns_pure) warns_pure
  | .slot _ _ (.function ..) | .function .. | .imported .. | .intrinsic _ | .ambiguous _ =>
    warns_reported nofun nofun warns_pure
  | .unknown => by
    refine warns_get fun s => ?_
    split
    · exact warns_bind warns_declareSymbol fun _ => warns_reported nofun nofun warns_pure
    · exact warns_pure
    · exact warns_reported nofun nofun warns_pure

theorem warns_bindAssign {target : Ident} {value : Bound.Expr} {line : Nat} :
    Warns (Justified all) (bindAssign ctx target value line) :=
  warns_get fun _ => warns_bind (warns_assignPlace _) fun _ => warns_pure

/-- A divisor is reported if it is written as zero. -/
theorem warns_checkDivisor {op : BinaryOp} {divisor : Tree.Expr}
    (h : op = .div ∨ op = .rem → divisor = .literal (.int 0) divisor.span → DividesByZero all op divisor.span) :
    Warns (Justified all) (checkDivisor ctx op divisor) := by
  unfold checkDivisor
  split
  · rename_i hreport
    obtain ⟨hop, hzero⟩ := Bool.and_eq_true_iff.mp hreport
    refine warns_report nofun fun op' heq => ?_
    obtain rfl := Notice.divideByZero.inj heq
    refine h (by simpa using hop) ?_
    unfold isZero at hzero
    split at hzero
    · rw [of_decide_eq_true hzero, Tree.Expr.span]
    · cases hzero
  · exact warns_pure

end

/-! ### What is flagged -/

section
variable {ctx : Context} {all : List Tree.Block}

/-- A statement is reported once in a block: if control does not come to it, unless it is a function. -/
theorem checkReachable_run (ctx : Context) (diverged warned : Bool) (st : Tree.Stmt) (s : State) :
    ((checkReachable ctx diverged warned st).run s).1 = (warned || diverged && !st.isFunction) := by
  cases st with
  | func name params body span =>
    rw [Tree.Stmt.isFunction, Bool.not_true, Bool.and_false, Bool.or_false]
    rfl
  | _ => cases diverged <;> cases warned <;> rfl

/-- As long as nothing was reported in a block, what comes next is justified: the first of the statements that control
    cannot come to, or else the value. -/
def Awaits (all : List Tree.Block) (last : Option Tree.Expr) (diverged warned : Bool) (ss : List Tree.Stmt) : Prop :=
  warned = false → ∃ k, ∀ found, Tree.unreachable? k diverged last ss = some found → Unreachable all found.2

theorem Awaits.next {last : Option Tree.Expr} {diverged warned : Bool} {st : Tree.Stmt} {ss : List Tree.Stmt}
    (h : Awaits all last diverged warned (st :: ss)) :
    Awaits all last (diverged || st.diverges) (warned || diverged && !st.isFunction) ss := by
  intro hwarned
  obtain ⟨hwarned, hreport⟩ := Bool.or_eq_false_iff.mp hwarned
  obtain ⟨k, hk⟩ := h hwarned
  refine ⟨k + 1, fun found hfound => hk found ?_⟩
  rw [Tree.unreachable?, hreport, if_neg Bool.false_ne_true]
  exact hfound

theorem warns_checkReachable {last : Option Tree.Expr} {diverged warned : Bool} {st : Tree.Stmt} {ss : List Tree.Stmt}
    (h : Awaits all last diverged warned (st :: ss)) : Warns (Justified all) (checkReachable ctx diverged warned st) := by
  unfold checkReachable
  split
  · exact warns_pure
  · rename_i hfunction
    split
    · rename_i hreport
      obtain ⟨hdiverged, hwarned⟩ := Bool.and_eq_true_iff.mp hreport
      refine warns_bind (warns_report (fun _ => ?_) nofun) fun _ => warns_pure
      obtain ⟨k, hk⟩ := h (by simpa using hwarned)
      have hplain : st.isFunction = false := by
        cases st with
        | func name params body span => exact absurd rfl (hfunction name params body span)
        | _ => rfl
      refine hk (k, st.span) ?_
      rw [Tree.unreachable?, hdiverged, hplain]
      rfl
    · exact warns_pure

/-- What is left for the value of a block. -/
theorem stmts_awaits (inLoop : Bool) {last : Option Tree.Expr} {ss : List Tree.Stmt} : ∀ {diverged warned : Bool},
    Awaits all last diverged warned ss → ∀ s, Awaits all last ((stmts ctx inLoop diverged warned ss).run s).1.2.1
      ((stmts ctx inLoop diverged warned ss).run s).1.2.2 [] := by
  induction ss with
  | nil => exact fun h _ => h
  | cons st ss ih =>
    intro diverged warned h s
    have hnext := h.next
    rw [← checkReachable_run ctx diverged warned st s] at hnext
    exact ih hnext _

theorem Awaits.tail {last : Tree.Expr} {diverged warned : Bool} (h : Awaits all (some last) diverged warned [])
    (hreport : (diverged && !warned) = true) : Unreachable all last.span := by
  obtain ⟨hdiverged, hwarned⟩ := Bool.and_eq_true_iff.mp hreport
  obtain ⟨k, hk⟩ := h (by simpa using hwarned)
  refine hk (k, last.span) ?_
  rw [Tree.unreachable?, if_pos hdiverged]
  rfl

/-- All of these blocks are known, and each of these operations is in a known block. -/
structure Encloses (all blocks : List Tree.Block) (operations : List Tree.Operation) : Prop where
  blocks : ∀ t ∈ blocks, t ∈ all
  operations : ∀ o ∈ operations, ∃ t ∈ all, o ∈ t.operations

theorem Encloses.append {xs ys : List Tree.Block} {os ps : List Tree.Operation} (h : Encloses all (xs ++ ys) (os ++ ps)) :
    Encloses all xs os ∧ Encloses all ys ps := by
  obtain ⟨hxs, hys⟩ := List.forall_mem_append.mp h.blocks
  obtain ⟨hos, hps⟩ := List.forall_mem_append.mp h.operations
  exact ⟨⟨hxs, hos⟩, hys, hps⟩

/-- Blocks behind an expression have operations of their own. -/
theorem Encloses.split {xs ys : List Tree.Block} {os : List Tree.Operation} (h : Encloses all (xs ++ ys) os) :
    Encloses all xs os ∧ ∀ t ∈ ys, t ∈ all := by
  obtain ⟨hxs, hys⟩ := List.forall_mem_append.mp h.blocks
  exact ⟨⟨hxs, h.operations⟩, hys⟩

mutual

theorem warns_expr (inLoop : Bool) : (e : Tree.Expr) → Encloses all (Tree.Blocks.expr e) (Tree.Operations.expr e) →
    Warns (Justified all) (expr ctx inLoop e)
  | .name _, _ => warns_bind warns_resolveRead fun res => warns_nameValue res
  | .path _ _ _, _ => warns_bind warns_resolvePath fun res => warns_pathValue res
  | .literal _ _, _ => warns_pure
  | .binary op left right _, h => by
    obtain ⟨⟨t, ht, hown⟩, operations⟩ := List.forall_mem_cons.mp h.operations
    obtain ⟨hl, hr⟩ := Encloses.append ⟨h.blocks, operations⟩
    have divides (hop : op = .div ∨ op = .rem) (hzero : right = .literal (.int 0) right.span) :
        DividesByZero all op right.span := ⟨t, ht, left, hop, hzero ▸ hown⟩
    exact warns_bind (warns_checkDivisor divides) fun _ => warns_bind (warns_expr inLoop left hl) fun _ =>
      warns_bind (warns_expr inLoop right hr) fun _ => warns_pure
  | .unary _ operand _, h => warns_bind (warns_expr inLoop operand h) fun _ => warns_pure
  | .call callee args _, h => by
    obtain ⟨hc, ha⟩ := h.append
    unfold expr
    split
    · refine warns_bind warns_resolveRead fun res => warns_bind warns_checkArity fun _ => ?_
      refine warns_bind (warns_exprs inLoop args ha) fun _ => ?_
      split
      · exact warns_pure
      · exact warns_bind (warns_nameValue res) fun _ => warns_pure
    · refine warns_bind warns_resolvePath fun res => warns_bind warns_checkArity fun _ => ?_
      refine warns_bind (warns_exprs inLoop args ha) fun _ => ?_
      split
      · exact warns_pure
      · exact warns_bind (warns_pathValue res) fun _ => warns_pure
    · exact warns_bind (warns_exprs inLoop args ha) fun _ => warns_bind (warns_expr inLoop callee hc) fun _ => warns_pure
  | .index base position _, h => by
    obtain ⟨hb, hp⟩ := h.append
    exact warns_bind (warns_expr inLoop base hb) fun _ => warns_bind (warns_expr inLoop position hp) fun _ => warns_pure
  | .list items _, h => warns_bind (warns_exprs inLoop items h) fun _ => warns_pure
  | .branch b, h => warns_branch inLoop b h
  | .block b, h => warns_bind (warns_inScope (warns_block inLoop b h.blocks)) fun _ => warns_pure

theorem warns_exprs (inLoop : Bool) : (es : List Tree.Expr) → Encloses all (Tree.Blocks.exprs es) (Tree.Operations.exprs es) →
    Warns (Justified all) (exprs ctx inLoop es)
  | [], _ => warns_pure
  | e :: es, h => by
    obtain ⟨he, hes⟩ := h.append
    exact warns_bind (warns_expr inLoop e he) fun _ => warns_bind (warns_exprs inLoop es hes) fun _ => warns_pure

theorem warns_branch (inLoop : Bool) : (b : Tree.Branch) → Encloses all (Tree.Blocks.branch b) (Tree.Operations.branch b) →
    Warns (Justified all) (branch ctx inLoop b)
  | .mk condition body other _, h => by
    obtain ⟨h, ho⟩ := h.split
    obtain ⟨hc, hb⟩ := h.split
    exact warns_bind (warns_expr inLoop condition hc) fun _ =>
      warns_bind (warns_inScope (warns_block inLoop body hb)) fun _ =>
        warns_bind (warns_otherwise inLoop other ho) fun _ => warns_pure

theorem warns_otherwise (inLoop : Bool) : (o : Tree.Otherwise) → (∀ t ∈ Tree.Blocks.otherwise o, t ∈ all) →
    Warns (Justified all) (otherwise ctx inLoop o)
  | .nothing, _ => warns_pure
  | .block b, h => warns_inScope (warns_block inLoop b h)
  | .branch b, h => by
    obtain ⟨hown, h⟩ := List.forall_mem_cons.mp h
    exact warns_bind (warns_branch inLoop b ⟨h, fun o ho => ⟨_, hown, ho⟩⟩) fun _ => warns_pure

theorem warns_block (inLoop : Bool) : (b : Tree.Block) → (∀ t ∈ Tree.Blocks.block b, t ∈ all) →
    Warns (Justified all) (block ctx inLoop b)
  | .mk body last span, h => by
    obtain ⟨hown, h⟩ := List.forall_mem_cons.mp h
    obtain ⟨hbody, hlast⟩ := Encloses.append ⟨h, fun o ho => ⟨.mk body last span, hown, ho⟩⟩
    have awaits : Awaits all last false false body := fun _ => ⟨0, fun found hfound => ⟨_, hown, found.1, hfound⟩⟩
    exact warns_known (warns_stmts inLoop body awaits hbody) (stmts_awaits inLoop awaits) fun a ha =>
      warns_bind (warns_tail inLoop last ha hlast) fun _ => warns_pure

theorem warns_stmts (inLoop : Bool) {last : Option Tree.Expr} {diverged warned : Bool} : (ss : List Tree.Stmt) →
    Awaits all last diverged warned ss → Encloses all (Tree.Blocks.stmts ss) (ss.flatMap Tree.Operations.stmt) →
    Warns (Justified all) (stmts ctx inLoop diverged warned ss)
  | [], _, _ => warns_pure
  | st :: ss, awaits, h => by
    rw [List.flatMap_cons] at h
    obtain ⟨hs, hss⟩ := h.append
    refine warns_known (Q := fun reported => reported = (warned || diverged && !st.isFunction))
      (warns_checkReachable awaits) (checkReachable_run ctx diverged warned st) fun reported hreported => ?_
    have awaits := hreported ▸ awaits.next
    exact warns_bind (warns_stmt inLoop st hs) fun _ => warns_bind (warns_stmts inLoop ss awaits hss) fun _ => warns_pure

theorem warns_tail (inLoop : Bool) {diverged warned : Bool} : (e : Option Tree.Expr) →
    Awaits all e diverged warned [] → Encloses all (Tree.Blocks.optional e) (Tree.Operations.optional e) →
    Warns (Justified all) (tail ctx inLoop (diverged && !warned) e)
  | none, _, _ => warns_pure
  | some e, awaits, h => by
    have value : Warns (Justified all) (expr ctx inLoop e >>= fun b => pure (Bound.Tail.value b (lineOf ctx e.span))) :=
      warns_bind (warns_expr inLoop e h) fun _ => warns_pure
    unfold tail
    split
    · rename_i hreport
      exact warns_bind (warns_report (fun _ => awaits.tail hreport) nofun) fun _ => value
    · exact value

theorem warns_optional (inLoop : Bool) : (e : Option Tree.Expr) → Encloses all (Tree.Blocks.optional e) (Tree.Operations.optional e) →
    Warns (Justified all) (optional ctx inLoop e)
  | none, _ => warns_pure
  | some e, h => warns_bind (warns_expr inLoop e h) fun _ => warns_pure

theorem warns_stmt (inLoop : Bool) : (st : Tree.Stmt) → Encloses all (Tree.Blocks.stmt st) (Tree.Operations.stmt st) →
    Warns (Justified all) (stmt ctx inLoop st)
  | .bind _ _ value _, h => warns_bind (warns_optional inLoop value h) fun _ => warns_bindVariable
  | .assign _ value _, h => warns_bind (warns_expr inLoop value h) fun _ => warns_bindAssign
  | .setIndex base position value _, h => by
    obtain ⟨h, hv⟩ := h.append
    obtain ⟨hb, hp⟩ := h.append
    exact warns_bind (warns_expr inLoop base hb) fun _ => warns_bind (warns_expr inLoop position hp) fun _ =>
      warns_bind (warns_expr inLoop value hv) fun _ => warns_pure
  | .func _ _ _ _, _ => warns_get fun _ => warns_ite (warns_reported nofun nofun warns_pure) warns_pure
  | .eval e, h => warns_bind (warns_expr inLoop e h) fun _ => warns_pure
  | .ret value _, h => warns_bind (warns_optional inLoop value h) fun _ => warns_pure
  | .loop condition body _, h => by
    obtain ⟨hc, hb⟩ := h.split
    exact warns_bind (warns_expr inLoop condition hc) fun _ =>
      warns_bind (warns_inScope (warns_block true body hb)) fun _ => warns_pure
  | .leave _, _ | .next _, _ => warns_ite (warns_reported nofun nofun warns_pure) warns_pure

end

end

/-! ### Where bound blocks come from -/

/-- A block is what binding gave for a block of the source, and its operations are those of that block. -/
structure BoundFrom (ctx : Context) (t : Tree.Block) (b : Bound.Block) : Prop where
  made : ∃ inLoop s, b = ((block ctx inLoop t).run s).1
  operations : ∀ pc, Performs ctx t.operations (Operations.block pc b)

/-- The blocks of a bound tree are those of the source, in the same order. -/
def Mirrors (ctx : Context) (ts : List Tree.Block) (blocks : List BlockAt) : Prop :=
  List.Forall₂ (fun t b => BoundFrom ctx t b.block) ts blocks

section
variable {ctx : Context} {s : State}

theorem Mirrors.append {ts us : List Tree.Block} {xs ys : List BlockAt} (h : Mirrors ctx ts xs) (h' : Mirrors ctx us ys) :
    Mirrors ctx (ts ++ us) (xs ++ ys) := List.rel_append h h'

/-- Names hold no blocks. -/
theorem yields_nameValue_blocks (ident : Ident) (res : Resolution) :
    Yields s (nameValue ctx ident res) fun _ b => ∀ pc, Blocks.expr pc b = [] :=
  ⟨(yields_nameValue ident res).1, fun _ _ _ pc => by cases res <;> rfl⟩

theorem yields_pathValue_blocks (member : Ident) (res : Resolution) :
    Yields s (pathValue ctx member res) fun _ b => ∀ pc, Blocks.expr pc b = [] :=
  ⟨(yields_pathValue res).1, fun _ _ _ pc => by cases res <;> rfl⟩

theorem blocks_binary (op : BinaryOp) (l r : Bound.Expr) : ∃ n, ∀ pc, Blocks.expr pc (binary op l r) =
    Blocks.expr pc l ++ Blocks.expr (pc + Size.expr l + n) r := by
  cases op with
  | and => exact ⟨1, fun _ => rfl⟩
  | or => exact ⟨3, fun _ => rfl⟩
  | _ => exact ⟨0, fun _ => rfl⟩

theorem blocks_exprs_one (pc : Nat) (e : Bound.Expr) : Blocks.exprs pc [e] = Blocks.expr pc e := List.append_nil _

theorem blocks_stmts_one (pc : Nat) (s : Bound.Stmt) : Blocks.stmts pc [s] = Blocks.stmt pc s := List.append_nil _

theorem yields_bindVariable_blocks {name : Ident} {mutable : Bool} {value : Option Bound.Expr} {line : Nat}
    (rooted : Rooted ctx s) : Yields s (bindVariable ctx name mutable value line) fun _ st =>
      ∀ pc, Blocks.stmts pc st.toList = Blocks.exprs pc value.toList := by
  refine (yields_bindVariable_stores rooted).imp fun last st h pc => ?_
  obtain ⟨place, rfl⟩ | ⟨rfl, rfl⟩ := h
  · cases value <;> rfl
  · rfl

theorem yields_bindAssign_blocks {target : Ident} {value : Bound.Expr} {line : Nat} (rooted : Rooted ctx s) :
    Yields s (bindAssign ctx target value line) fun _ st => ∀ pc, Blocks.stmts pc st.toList = Blocks.expr pc value := by
  refine (yields_bindAssign_stores rooted).imp fun last st h pc => ?_
  obtain ⟨place, rfl⟩ := h
  exact blocks_stmts_one pc _

end

/-- The blocks in a block. -/
def inner (pc : Nat) : Bound.Block → List BlockAt
  | .mk body last => Blocks.stmts pc body ++ Blocks.tail (pc + Size.stmts body) last

theorem blocks_block (pc : Nat) (b : Bound.Block) : Blocks.block pc b = ⟨b, pc⟩ :: inner pc b := by
  cases b
  rfl

theorem blocks_stmts_append (pc : Nat) (ss ss' : List Bound.Stmt) :
    Blocks.stmts pc (ss ++ ss') = Blocks.stmts pc ss ++ Blocks.stmts (pc + Size.stmts ss) ss' := by
  induction ss generalizing pc with
  | nil => rfl
  | cons s ss ih =>
    rw [List.cons_append, Blocks.stmts, ih, Blocks.stmts, Size.stmts, List.append_assoc, Nat.add_assoc]

section
variable {ctx : Context}

mutual

/-- Without errors the blocks of a bound expression come from those of the source. -/
theorem yields_exprBlocks (s : State) (inLoop : Bool) : (e : Tree.Expr) → Yields s (expr ctx inLoop e) fun _ b =>
    ∀ pc, Mirrors ctx (Tree.Blocks.expr e) (Blocks.expr pc b)
  | .name ident => yields_bind yields_resolveRead fun res _ _ _ =>
      (yields_nameValue_blocks ident res).imp fun _ _ h pc => h pc ▸ .nil
  | .path _ member _ => yields_bind yields_resolvePath fun res _ _ _ =>
      (yields_pathValue_blocks member res).imp fun _ _ h pc => h pc ▸ .nil
  | .literal value _ => yields_pure fun _ _ _ pc => by cases value <;> exact .nil
  | .binary op left right _ =>
    yields_bind yields_checkDivisor fun _ s₁ _ _ => yields_bind (yields_exprBlocks s₁ inLoop left) fun l s₂ _ hl =>
      yields_bind (yields_exprBlocks s₂ inLoop right) fun r s₃ keeps hr => yields_pure fun last hlast clean pc => by
        obtain ⟨n, hn⟩ := blocks_binary op l r
        exact hn pc ▸ (hl last (keeps.toBefore.trans hlast) clean pc).append (hr last hlast clean _)
  | .unary _ operand _ => yields_bind (yields_exprBlocks s inLoop operand) fun _ _ _ h => yields_pure h
  | .call callee args _ => by
    unfold expr
    split
    · rename_i ident
      refine yields_bind yields_resolveRead fun res s₁ _ _ => yields_bind yields_checkArity fun _ s₂ _ _ => ?_
      refine yields_bind (yields_exprsBlocks s₂ inLoop args) fun bound s₃ h₃ hargs => ?_
      split
      · exact yields_pure hargs
      · refine yields_bind (yields_nameValue_blocks ident res) fun c s₄ h₄ hc => yields_pure fun last hlast clean pc => ?_
        rw [Blocks.expr, hc last hlast clean]
        exact hargs last (h₄.toBefore.trans hlast) clean _
    · rename_i library member span
      refine yields_bind yields_resolvePath fun res s₁ _ _ => yields_bind yields_checkArity fun _ s₂ _ _ => ?_
      refine yields_bind (yields_exprsBlocks s₂ inLoop args) fun bound s₃ h₃ hargs => ?_
      split
      · exact yields_pure hargs
      · refine yields_bind (yields_pathValue_blocks member res) fun c s₄ h₄ hc => yields_pure fun last hlast clean pc => ?_
        rw [Blocks.expr, hc last hlast clean]
        exact hargs last (h₄.toBefore.trans hlast) clean _
    · exact yields_bind (yields_exprsBlocks s inLoop args) fun _ s₁ _ hargs =>
        yields_bind (yields_exprBlocks s₁ inLoop callee) fun _ s₂ keeps hcallee => yields_pure fun last hlast clean pc =>
          (hcallee last hlast clean pc).append (hargs last (keeps.toBefore.trans hlast) clean _)
  | .index base position _ =>
    yields_bind (yields_exprBlocks s inLoop base) fun _ s₁ _ hb => yields_bind (yields_exprBlocks s₁ inLoop position)
      fun _ s₂ keeps hp => yields_pure fun last hlast clean pc =>
        (hb last (keeps.toBefore.trans hlast) clean pc).append (hp last hlast clean _)
  | .list items _ => yields_bind (yields_exprsBlocks s inLoop items) fun _ _ _ h => yields_pure h
  | .branch b => yields_branchBlocks s inLoop b
  | .block b => yields_bind (yields_inScope fun s' inner => yields_blocks s' (rooted_inner inner) inLoop b)
      fun _ _ _ h => yields_pure h

theorem yields_exprsBlocks (s : State) (inLoop : Bool) : (es : List Tree.Expr) → Yields s (exprs ctx inLoop es)
    fun _ bs => ∀ pc, Mirrors ctx (Tree.Blocks.exprs es) (Blocks.exprs pc bs)
  | [] => yields_pure fun _ _ _ _ => .nil
  | e :: es => yields_bind (yields_exprBlocks s inLoop e) fun _ s₁ _ he => yields_bind (yields_exprsBlocks s₁ inLoop es)
      fun _ _ keeps hes => yields_pure fun last hlast clean pc =>
        (he last (keeps.toBefore.trans hlast) clean pc).append (hes last hlast clean _)

theorem yields_branchBlocks (s : State) (inLoop : Bool) : (b : Tree.Branch) → Yields s (branch ctx inLoop b) fun _ b' =>
    ∀ pc, Mirrors ctx (Tree.Blocks.branch b) (Blocks.expr pc b')
  | .mk condition body other _ =>
    yields_bind (yields_exprBlocks s inLoop condition) fun _ _ _ hc =>
      yields_bind (yields_inScope fun s' inner => yields_blocks s' (rooted_inner inner) inLoop body) fun _ s₂ h₂ hb =>
        yields_bind (yields_otherwiseBlocks s₂ inLoop other) fun _ _ h₃ ho => yields_pure fun last hlast clean pc =>
          ((hc last ((h₂.trans h₃).toBefore.trans hlast) clean pc).append (hb last (h₃.toBefore.trans hlast) clean _)).append
            (ho last hlast clean _)

theorem yields_otherwiseBlocks (s : State) (inLoop : Bool) : (o : Tree.Otherwise) → Yields s (otherwise ctx inLoop o)
    fun _ b => ∀ pc, Mirrors ctx (Tree.Blocks.otherwise o) (Blocks.block pc b)
  | .nothing => yields_pure fun _ _ _ pc => .cons ⟨⟨inLoop, s, rfl⟩, fun _ => .nil⟩ .nil
  | .block b => yields_inScope fun s' inner => yields_blocks s' (rooted_inner inner) inLoop b
  | .branch b => by
    have bound := yields_branchBlocks s inLoop b
    have operations := (@yields_branchOperations ctx s inLoop b).2
    exact ⟨bound.1, fun last hlast clean pc =>
      .cons ⟨⟨inLoop, s, rfl⟩, fun _ => operations last hlast clean _⟩ (bound.2 last hlast clean _)⟩

theorem yields_blocks (s : State) (rooted : Rooted ctx s) (inLoop : Bool) : (b : Tree.Block) →
    Yields s (block ctx inLoop b) fun _ b' => ∀ pc, Mirrors ctx (Tree.Blocks.block b) (Blocks.block pc b')
  | .mk body last span => by
    have parts : Yields s (block ctx inLoop (.mk body last span)) fun _ b' =>
        ∀ pc, Mirrors ctx (Tree.Blocks.stmts body ++ Tree.Blocks.optional last) (inner pc b') :=
      yields_bind (yields_stmtsBlocks s rooted inLoop false false body) fun _ s₁ _ hbody =>
        yields_bind (yields_tailBlocks s₁ inLoop _ last) fun _ _ keeps hlast => yields_pure fun final hfinal clean pc =>
          (hbody final (keeps.toBefore.trans hfinal) clean pc).append (hlast final hfinal clean _)
    refine ⟨parts.1, fun final hfinal clean pc => ?_⟩
    rw [blocks_block]
    have operations := (yields_blockOperations s rooted inLoop (.mk body last span)).2 final hfinal clean
    exact .cons ⟨⟨inLoop, s, rfl⟩, operations⟩ (parts.2 final hfinal clean pc)

theorem yields_stmtsBlocks (s : State) (rooted : Rooted ctx s) (inLoop diverged warned : Bool) : (ss : List Tree.Stmt) →
    Yields s (stmts ctx inLoop diverged warned ss) fun _ result =>
      ∀ pc, Mirrors ctx (Tree.Blocks.stmts ss) (Blocks.stmts pc result.1)
  | [] => yields_pure fun _ _ _ _ => .nil
  | st :: ss =>
    yields_bind yields_checkReachable fun _ s₁ h₁ _ => yields_bind (yields_stmtBlocks s₁ (rooted.keeps h₁) inLoop st)
      fun _ s₂ h₂ hfirst => yields_bind (yields_stmtsBlocks s₂ (rooted.keeps (h₁.trans h₂)) inLoop _ _ ss)
        fun _ _ h₃ hrest => yields_pure fun last hlast clean pc => by
          rw [blocks_stmts_append]
          exact (hfirst last (h₃.toBefore.trans hlast) clean pc).append (hrest last hlast clean _)

theorem yields_stmtBlocks (s : State) (rooted : Rooted ctx s) (inLoop : Bool) : (st : Tree.Stmt) →
    Yields s (stmt ctx inLoop st) fun _ b => ∀ pc, Mirrors ctx (Tree.Blocks.stmt st) (Blocks.stmts pc b.toList)
  | .bind _ _ value _ => yields_bind (yields_optionalBlocks s inLoop value) fun _ _ keeps hv =>
      ((yields_bindVariable_blocks (rooted.keeps keeps)).beside hv).imp fun _ _ h pc => h.1 pc ▸ h.2 pc
  | .assign _ value _ => yields_bind (yields_exprBlocks s inLoop value) fun _ _ keeps hv =>
      ((yields_bindAssign_blocks (rooted.keeps keeps)).beside hv).imp fun _ _ h pc => h.1 pc ▸ h.2 pc
  | .setIndex base position value _ =>
    yields_bind (yields_exprBlocks s inLoop base) fun _ s₁ _ hb =>
      yields_bind (yields_exprBlocks s₁ inLoop position) fun _ s₂ h₂ hp =>
        yields_bind (yields_exprBlocks s₂ inLoop value) fun _ s₃ h₃ hv => yields_pure fun last hlast clean pc => by
          rw [Option.toList_some, blocks_stmts_one]
          exact ((hb last ((h₂.trans h₃).toBefore.trans hlast) clean pc).append
            (hp last (h₃.toBefore.trans hlast) clean _)).append (hv last hlast clean _)
  | .func _ _ _ _ => yields_get (yields_ite (yields_reported fun _ _ => yields_pure fun _ _ _ _ => .nil)
      (yields_pure fun _ _ _ _ => .nil))
  | .eval e => yields_bind (yields_exprBlocks s inLoop e) fun _ _ _ h => yields_pure fun last hlast clean pc => by
      rw [Option.toList_some, blocks_stmts_one]
      exact h last hlast clean pc
  | .ret value _ => yields_bind (yields_optionalBlocks s inLoop value) fun v _ _ h => yields_pure fun last hlast clean pc => by
      cases v with
      | none => exact h last hlast clean pc
      | some e => exact h last hlast clean pc
  | .loop condition body _ =>
    yields_bind (yields_exprBlocks s inLoop condition) fun _ s₁ _ hc =>
      yields_bind (yields_inScope fun s' inner => yields_blocks s' (rooted_inner inner) true body) fun _ s₂ keeps hb =>
        yields_pure fun last hlast clean pc => by
          rw [Option.toList_some, blocks_stmts_one]
          exact (hc last (keeps.toBefore.trans hlast) clean pc).append (hb last hlast clean _)
  | .leave _ | .next _ => yields_ite (yields_reported fun _ _ => yields_pure fun _ _ _ _ => .nil)
      (yields_pure fun _ _ _ _ => .nil)

theorem yields_optionalBlocks (s : State) (inLoop : Bool) : (e : Option Tree.Expr) →
    Yields s (optional ctx inLoop e) fun _ v => ∀ pc, Mirrors ctx (Tree.Blocks.optional e) (Blocks.exprs pc v.toList)
  | none => yields_pure fun _ _ _ _ => .nil
  | some e => yields_bind (yields_exprBlocks s inLoop e) fun _ _ _ h => yields_pure fun last hlast clean pc => by
      rw [Option.toList_some, blocks_exprs_one]
      exact h last hlast clean pc

theorem yields_tailBlocks (s : State) (inLoop unreachable : Bool) : (e : Option Tree.Expr) →
    Yields s (tail ctx inLoop unreachable e) fun _ t => ∀ pc, Mirrors ctx (Tree.Blocks.optional e) (Blocks.tail pc t)
  | none => yields_pure fun _ _ _ _ => .nil
  | some e => by
    have value (s' : State) : Yields s' (expr ctx inLoop e >>= fun b => pure (Bound.Tail.value b (lineOf ctx e.span)))
        fun _ t => ∀ pc, Mirrors ctx (Tree.Blocks.optional (some e)) (Blocks.tail pc t) :=
      yields_bind (yields_exprBlocks s' inLoop e) fun _ _ _ h => yields_pure h
    exact yields_ite (yields_reported fun s' _ => value s') (value s)

end

end
end Binder
end ScriptEngine
