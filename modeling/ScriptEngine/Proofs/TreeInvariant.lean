import ScriptEngine.Tree.Parser

/-! What holds of everything that is read. Reading drops tokens and adds none, whether it succeeds or not; and a property
    that goes from the parts of a tree to the tree (`Invariant`) holds of all trees that are read. -/

namespace ScriptEngine.Tree

namespace Parser

/-- Reading drops tokens and adds none: what holds of all tokens that were left still holds of all. What is
    read has a property. -/
def Reads {α : Type} (P : Token → Prop) (p : Parser α) (Q : α → Prop) : Prop :=
  ∀ c : Cursor, (∀ t ∈ c.rest, P t) → match p c with
    | .ok a c' => (∀ t ∈ c'.rest, P t) ∧ Q a
    | .error _ c' => ∀ t ∈ c'.rest, P t

section
variable {α β : Type} {P : Token → Prop} {p q : Parser α} {f : α → Parser β} {Q : α → Prop} {R : β → Prop}

theorem reads_pure {a : α} (h : Q a) : Reads P (pure a) Q := fun _ hc => ⟨hc, h⟩

theorem reads_bind (hp : Reads P p Q) (hf : ∀ a, Q a → Reads P (f a) R) : Reads P (p >>= f) R := by
  intro c hc
  have first := hp c hc
  show match EStateM.bind p f c with
    | .ok a c' => (∀ t ∈ c'.rest, P t) ∧ R a
    | .error _ c' => ∀ t ∈ c'.rest, P t
  unfold EStateM.bind
  cases hrun : p c with
  | ok a c' =>
    rw [hrun] at first
    exact hf a first.2 c' first.1
  | error e c' =>
    rw [hrun] at first
    exact first

theorem reads_ite {b : Prop} [Decidable b] (hp : Reads P p Q) (hq : Reads P q Q) :
    Reads P (if b then p else q) Q := by
  split
  · exact hp
  · exact hq

theorem reads_get : Reads P get fun c : Cursor => ∀ t ∈ c.rest, P t := fun _ hc => ⟨hc, hc⟩

/-- A change of the cursor that leaves the tokens alone. -/
theorem reads_modify {g : Cursor → Cursor} (h : ∀ c, (g c).rest = c.rest) : Reads P (modify g) fun _ => True := by
  intro c hc
  have : ((modify g : Parser Unit) c) = .ok () (g c) := rfl
  rw [this]
  refine ⟨?_, trivial⟩
  rw [h]
  exact hc

theorem reads_fail {cause : SyntaxCause} {span : Span} : Reads P (fail cause span : Parser α) Q := fun _ hc => hc

theorem reads_failHere {cause : SyntaxCause} : Reads P (failHere cause : Parser α) Q :=
  reads_bind reads_get fun _ _ => reads_fail

theorem reads_next : Reads P next fun _ => True := by
  refine reads_bind (fun c hc => ⟨fun t ht => ?_, trivial⟩) fun (_ : Unit) (_ : True) =>
    reads_bind reads_get fun _ _ => reads_pure trivial
  unfold Cursor.advance at ht
  split at ht
  · exact hc t ht
  · rename_i first rest hrest
    exact hc t (hrest ▸ .tail _ ht)

theorem reads_takeMark {m : Mark} : Reads P (takeMark m) fun _ => True :=
  reads_bind reads_get fun _ _ => reads_ite (reads_bind reads_next fun _ _ => reads_pure trivial) (reads_pure trivial)

theorem reads_takeKeyword {k : Keyword} : Reads P (takeKeyword k) fun _ => True :=
  reads_bind reads_get fun _ _ => reads_ite (reads_bind reads_next fun _ _ => reads_pure trivial) (reads_pure trivial)

theorem reads_expect {m : Mark} : Reads P (expect m) fun _ => True :=
  reads_bind reads_get fun _ _ => reads_ite reads_next (reads_bind reads_get fun _ _ => reads_failHere)

theorem reads_openChain {depth : Nat} : Reads P (openChain depth) fun _ => True :=
  reads_bind reads_get fun _ _ => reads_bind (reads_modify fun _ => rfl) fun _ _ => reads_pure trivial

theorem reads_closeChain {outer : Nat} : Reads P (closeChain outer) fun _ => True := reads_modify fun _ => rfl

theorem reads_deepen : Reads P deepen fun _ => True :=
  reads_bind (reads_modify fun _ => rfl) fun _ _ => reads_bind reads_get fun _ _ =>
    reads_ite (reads_bind reads_get fun _ _ => reads_fail) (reads_pure trivial)

theorem reads_enter {depth : Nat} (hp : Reads P p Q) : Reads P (enter depth p) Q :=
  reads_bind (reads_modify fun _ => rfl) fun _ _ => hp

end
end Parser

open ScriptEngine.Tree.Parser

/-- A property of everything that is read from tokens with a property: it holds of names, and of what is put together from
    parts of which it holds. -/
structure Invariant (P : Token → Prop) where
  ident : Ident → Prop
  expr : Expr → Prop
  branch : Branch → Prop
  otherwise : Otherwise → Prop
  block : Block → Prop
  stmt : Stmt → Prop
  word {t : Token} {name : String} : P t → t.lexeme = .word name → ∀ span, ident ⟨name, span⟩
  of_name {i : Ident} : ident i → expr (.name i)
  of_path {library member : Ident} {span : Span} : ident library → ident member → expr (.path library member span)
  of_literal {value : Literal} {span : Span} : expr (.literal value span)
  of_unary {op : UnaryOp} {start : Nat} {e : Expr} : expr e → expr (Level.applyUnary op start e)
  of_binary {op : BinaryOp} {left right : Expr} {span : Span} : expr left → expr right → expr (.binary op left right span)
  of_call {callee : Expr} {args : List Expr} {span : Span} : expr callee → (∀ e ∈ args, expr e) → expr (.call callee args span)
  of_index {base position : Expr} {span : Span} : expr base → expr position → expr (.index base position span)
  of_list {items : List Expr} {span : Span} : (∀ e ∈ items, expr e) → expr (.list items span)
  of_branch {b : Branch} : branch b → expr (.branch b)
  of_block {b : Block} : block b → expr (.block b)
  branch_mk {condition : Expr} {body : Block} {o : Otherwise} {span : Span} : expr condition → block body → otherwise o →
    branch (.mk condition body o span)
  no_otherwise : otherwise .nothing
  otherwise_block {b : Block} : block b → otherwise (.block b)
  otherwise_branch {b : Branch} : branch b → otherwise (.branch b)
  block_mk {stmts : List Stmt} {tail : Option Expr} {span : Span} : (∀ s ∈ stmts, stmt s) → (∀ e ∈ tail, expr e) →
    block (.mk stmts tail span)
  of_bind {name : Ident} {mutable : Bool} {value : Option Expr} {span : Span} : ident name → (∀ e ∈ value, expr e) →
    stmt (.bind name mutable value span)
  of_assign {target : Ident} {value : Expr} {span : Span} : expr (.name target) → expr value → stmt (.assign target value span)
  of_setIndex {base position value : Expr} {span target : Span} : expr (.index base position target) → expr value →
    stmt (.setIndex base position value span)
  of_func {name : Ident} {params : List Ident} {body : Block} {span : Span} : ident name → (∀ p ∈ params, ident p) →
    block body → stmt (.func name params body span)
  of_eval {e : Expr} : expr e → stmt (.eval e)
  of_ret {value : Option Expr} {span : Span} : (∀ e ∈ value, expr e) → stmt (.ret value span)
  of_loop {condition : Expr} {body : Block} {span : Span} : expr condition → block body → stmt (.loop condition body span)
  of_leave {span : Span} : stmt (.leave span)
  of_next {span : Span} : stmt (.next span)

namespace Level

/-- The readers of a level drop tokens and add none, and what they read has the property. -/
structure Reads {P : Token → Prop} (I : Invariant P) (l : Level) : Prop where
  unary (braces : Bool) : Parser.Reads P (l.unary braces) I.expr
  block (braces : Bool) : Parser.Reads P (l.block braces) I.block
  branch (braces : Bool) : Parser.Reads P (l.branch braces) I.branch

section
variable {P : Token → Prop} {I : Invariant P} {l : Level} {braces : Bool}

theorem reads_climb (hl : l.Reads I) (fuel least : Nat) {left : Expr} (hleft : I.expr left) :
    Parser.Reads P (l.climb braces fuel least left) I.expr := by
  induction fuel generalizing least left with
  | zero => exact reads_pure hleft
  | succ fuel ih =>
    refine reads_bind reads_get fun c _ => ?_
    split
    · exact reads_pure hleft
    · refine reads_ite (reads_pure hleft) ?_
      refine reads_bind reads_next fun _ _ => reads_bind reads_openChain fun outer _ => ?_
      refine reads_bind (hl.unary braces) fun first hfirst => reads_bind (ih _ hfirst) fun right hright => ?_
      exact reads_bind reads_closeChain fun _ _ => reads_bind reads_deepen fun _ _ => ih _ (I.of_binary hleft hright)

theorem reads_expression (hl : l.Reads I) : Parser.Reads P (l.expression braces) I.expr :=
  reads_bind reads_openChain fun _ _ => reads_bind (hl.unary braces) fun _ hfirst =>
    reads_bind reads_get fun _ _ => reads_bind (reads_climb hl _ _ hfirst) fun _ he =>
      reads_bind reads_closeChain fun _ _ => reads_pure he

theorem reads_items (hl : l.Reads I) (close : Mark) (fuel : Nat) :
    Parser.Reads P (l.items close fuel) fun es => ∀ e ∈ es, I.expr e := by
  induction fuel with
  | zero => exact reads_pure fun _ h => (nomatch h)
  | succ fuel ih =>
    refine reads_bind reads_get fun c _ => reads_ite (reads_pure fun _ h => (nomatch h)) ?_
    refine reads_bind (reads_expression hl) fun e he => reads_bind reads_takeMark fun taken _ => ?_
    refine reads_ite (reads_bind ih fun es hes => reads_pure ?_) (reads_pure ?_)
    · exact List.forall_mem_cons.mpr ⟨he, hes⟩
    · exact List.forall_mem_singleton.mpr he

theorem reads_closedItems (hl : l.Reads I) (close : Mark) :
    Parser.Reads P (l.closedItems close) fun r => ∀ e ∈ r.1, I.expr e :=
  reads_bind reads_get fun _ _ => reads_bind (reads_items hl close _) fun _ hes => reads_bind reads_expect fun _ _ =>
    reads_pure hes

theorem reads_name (I : Invariant P) {missing : SyntaxCause} : Parser.Reads P (Parser.ident missing) I.ident := by
  refine reads_bind reads_get fun c hc => ?_
  split
  · rename_i name hname
    refine reads_bind reads_next fun span _ => reads_pure ?_
    unfold Cursor.lexeme at hname
    split at hname
    · cases hname
    · rename_i t rest hrest
      exact I.word (hc t (hrest ▸ .head _)) hname span
  · exact reads_failHere

theorem reads_nameOrPath : Parser.Reads P nameOrPath I.expr := by
  refine reads_bind (reads_name I) fun first hfirst => reads_bind reads_takeMark fun taken _ => ?_
  exact reads_ite (reads_bind (reads_name I) fun _ hmember => reads_pure (I.of_path hfirst hmember))
    (reads_pure (I.of_name hfirst))

theorem reads_primary (hl : l.Reads I) : Parser.Reads P (l.primary braces) I.expr := by
  have literal {value : Literal} : Parser.Reads P (next >>= fun span => pure (.literal value span)) I.expr :=
    reads_bind reads_next fun _ _ => reads_pure I.of_literal
  refine reads_bind reads_takeKeyword fun taken _ => reads_ite ?_ ?_
  · exact reads_bind (hl.branch braces) fun _ hb => reads_pure (I.of_branch hb)
  refine reads_bind reads_get fun c _ => reads_ite ?_ ?_
  · exact reads_bind (hl.block braces) fun _ hb => reads_pure (I.of_block hb)
  refine reads_bind reads_get fun c _ => ?_
  split
  · exact reads_nameOrPath
  · exact literal
  · exact literal
  · exact literal
  · exact literal
  · exact literal
  · exact reads_bind reads_next fun _ _ => reads_bind (reads_expression hl) fun _ he =>
      reads_bind reads_expect fun _ _ => reads_pure he
  · exact reads_bind reads_next fun _ _ => reads_bind (reads_closedItems hl _) fun _ hes => reads_pure (I.of_list hes)
  · exact reads_failHere

theorem reads_suffixes (hl : l.Reads I) (fuel : Nat) {e : Expr} (he : I.expr e) :
    Parser.Reads P (l.suffixes braces fuel e) I.expr := by
  induction fuel generalizing e with
  | zero => exact reads_pure he
  | succ fuel ih =>
    refine reads_bind reads_takeMark fun called _ => reads_ite ?_ ?_
    · exact reads_bind (reads_closedItems hl _) fun _ hargs => reads_bind reads_deepen fun _ _ => ih (I.of_call he hargs)
    · refine reads_bind reads_takeMark fun indexed _ => reads_ite ?_ (reads_pure he)
      exact reads_bind (reads_expression hl) fun _ hposition => reads_bind reads_expect fun _ _ =>
        reads_bind reads_deepen fun _ _ => ih (I.of_index he hposition)

theorem reads_operand (hl : l.Reads I) : Parser.Reads P (l.operand braces) I.expr :=
  reads_bind reads_openChain fun _ _ => reads_bind (reads_primary hl) fun _ hfirst => reads_bind reads_get fun _ _ =>
    reads_bind (reads_suffixes hl _ hfirst) fun _ he => reads_bind reads_closeChain fun _ _ => reads_pure he

theorem reads_unaryBody (hl : l.Reads I) : Parser.Reads P (l.unaryBody braces) I.expr := by
  refine reads_bind reads_get fun c _ => ?_
  split
  · exact reads_bind reads_next fun _ _ => reads_bind (hl.unary braces) fun _ he => reads_pure (I.of_unary he)
  · exact reads_operand hl

theorem reads_otherwise (hl : l.Reads I) : Parser.Reads P (l.otherwise braces) I.otherwise := by
  refine reads_bind reads_takeKeyword fun taken _ => reads_ite ?_ (reads_pure I.no_otherwise)
  refine reads_bind reads_takeKeyword fun nested _ => reads_ite ?_ ?_
  · exact reads_bind (hl.branch braces) fun _ hb => reads_pure (I.otherwise_branch hb)
  · exact reads_bind (hl.block braces) fun _ hb => reads_pure (I.otherwise_block hb)

theorem reads_branchBody (hl : l.Reads I) : Parser.Reads P (l.branchBody braces) I.branch :=
  reads_bind reads_get fun _ _ => reads_bind (reads_expression hl) fun _ hcondition =>
    reads_bind (hl.block braces) fun _ hbody => reads_bind (reads_otherwise hl) fun _ ho =>
      reads_pure (I.branch_mk hcondition hbody ho)

/-! ### Statements -/

/-- The property of what stands in a block. -/
def Item.Has (I : Invariant P) : Item → Prop
  | .stmt s => I.stmt s
  | .tail e => I.expr e

theorem reads_bindStmt (hl : l.Reads I) {start : Nat} : Parser.Reads P (l.bindStmt braces start) I.stmt := by
  refine reads_bind reads_takeKeyword fun _ _ => reads_bind (reads_name I) fun _ hname => ?_
  refine reads_bind reads_takeMark fun _ _ => reads_ite ?_ ?_
  · refine reads_bind (reads_expression hl) fun value hvalue => reads_bind reads_expect fun _ _ => reads_pure ?_
    exact I.of_bind hname fun _ he => Option.some.inj he ▸ hvalue
  · exact reads_bind reads_expect fun _ _ => reads_pure (I.of_bind hname fun _ he => (nomatch he))

theorem reads_params (fuel : Nat) : Parser.Reads P (params fuel) fun ps => ∀ p ∈ ps, I.ident p := by
  induction fuel with
  | zero => exact reads_pure fun _ h => (nomatch h)
  | succ fuel ih =>
    refine reads_bind (reads_name I) fun p hp => ?_
    have single : ∀ p' ∈ [p], I.ident p' := List.forall_mem_singleton.mpr hp
    refine reads_bind reads_takeMark fun _ _ => reads_ite ?_ (reads_pure single)
    refine reads_bind reads_get fun _ _ => reads_ite (reads_pure single) ?_
    exact reads_bind ih fun _ hps => reads_pure (List.forall_mem_cons.mpr ⟨hp, hps⟩)

theorem reads_funcStmt (hl : l.Reads I) {start : Nat} : Parser.Reads P (l.funcStmt braces start) I.stmt := by
  refine reads_bind (reads_name I) fun name hname => reads_bind reads_expect fun _ _ => reads_bind reads_get fun _ _ => ?_
  have body {names : List Ident} (hnames : ∀ p ∈ names, I.ident p) : Parser.Reads P (do
      let _ ← expect .closeParen
      let body ← l.block braces
      return Stmt.func name names body ⟨start, body.span.stop⟩) I.stmt :=
    reads_bind reads_expect fun _ _ => reads_bind (hl.block braces) fun _ hbody => reads_pure (I.of_func hname hnames hbody)
  split
  · exact body fun _ h => (nomatch h)
  · exact reads_bind reads_get fun _ _ => reads_bind (reads_params _) fun names hnames => body hnames

theorem reads_retStmt (hl : l.Reads I) {start : Nat} : Parser.Reads P (l.retStmt braces start) I.stmt := by
  refine reads_bind reads_get fun _ _ => reads_ite ?_ ?_
  · exact reads_bind reads_next fun _ _ => reads_pure (I.of_ret fun _ he => (nomatch he))
  · refine reads_bind (reads_expression hl) fun value hvalue => reads_bind reads_expect fun _ _ => reads_pure ?_
    exact I.of_ret fun _ he => Option.some.inj he ▸ hvalue

theorem reads_loopStmt (hl : l.Reads I) {start : Nat} : Parser.Reads P (l.loopStmt braces start) I.stmt :=
  reads_bind (reads_expression hl) fun _ hcondition => reads_bind (hl.block braces) fun _ hbody =>
    reads_pure (I.of_loop hcondition hbody)

theorem reads_assignStmt (hl : l.Reads I) {target : Expr} (htarget : I.expr target) :
    Parser.Reads P (l.assignStmt braces target) I.stmt := by
  unfold assignStmt
  split
  · exact reads_bind (reads_expression hl) fun _ hvalue => reads_bind reads_expect fun _ _ =>
      reads_pure (I.of_assign htarget hvalue)
  · exact reads_bind (reads_expression hl) fun _ hvalue => reads_bind reads_expect fun _ _ =>
      reads_pure (I.of_setIndex htarget hvalue)
  · exact reads_fail

theorem reads_exprItem (hl : l.Reads I) : Parser.Reads P (l.exprItem braces) (Item.Has I) := by
  refine reads_bind (reads_expression hl) fun e he => reads_bind reads_takeMark fun _ _ => reads_ite ?_ ?_
  · exact reads_bind (reads_assignStmt hl he) fun _ hs => reads_pure hs
  refine reads_bind reads_takeMark fun _ _ => reads_ite (reads_pure (I.of_eval he)) ?_
  exact reads_bind reads_get fun _ _ => reads_ite (reads_pure (I.of_eval he)) (reads_pure he)

theorem reads_item (hl : l.Reads I) : Parser.Reads P (l.item braces) (Item.Has I) := by
  have stmt {p : Nat → Parser Stmt} (hp : ∀ start, Parser.Reads P (p start) I.stmt) : Parser.Reads P
      (next >>= fun span => p span.start >>= fun s => pure (Item.stmt s)) (Item.Has I) :=
    reads_bind reads_next fun span _ => reads_bind (hp span.start) fun _ hs => reads_pure hs
  have control {s : Span → Stmt} (hs : ∀ span, I.stmt (s span)) : Parser.Reads P
      (next >>= fun span => expect .semicolon >>= fun _ => pure (Item.stmt (s span))) (Item.Has I) :=
    reads_bind reads_next fun span _ => reads_bind reads_expect fun _ _ => reads_pure (hs span)
  refine reads_bind reads_get fun c _ => ?_
  split
  · exact stmt fun _ => reads_bindStmt hl
  · exact stmt fun _ => reads_funcStmt hl
  · exact stmt fun _ => reads_retStmt hl
  · exact stmt fun _ => reads_loopStmt hl
  · exact control fun _ => I.of_leave
  · exact control fun _ => I.of_next
  · exact reads_exprItem hl

theorem reads_blockItems (hl : l.Reads I) (fuel : Nat) : Parser.Reads P (l.blockItems braces fuel) fun r =>
    (∀ s ∈ r.1, I.stmt s) ∧ ∀ e ∈ r.2, I.expr e := by
  have none : (∀ s ∈ ([] : List Stmt), I.stmt s) ∧ ∀ e ∈ (Option.none : Option Expr), I.expr e :=
    ⟨fun _ h => (nomatch h), fun _ h => (nomatch h)⟩
  induction fuel with
  | zero => exact reads_pure none
  | succ fuel ih =>
    refine reads_bind reads_get fun _ _ => reads_ite (reads_pure none) ?_
    refine reads_bind reads_takeMark fun _ _ => reads_ite ih ?_
    refine reads_bind (reads_item hl) fun item hitem => ?_
    cases item with
    | tail e => exact reads_pure ⟨none.1, fun _ he => Option.some.inj he ▸ hitem⟩
    | stmt s => exact reads_bind ih fun _ hr => reads_pure ⟨List.forall_mem_cons.mpr ⟨hitem, hr.1⟩, hr.2⟩

theorem reads_blockBody (hl : l.Reads I) : Parser.Reads P (l.blockBody braces) I.block :=
  reads_bind reads_expect fun _ _ => reads_bind reads_get fun _ _ => reads_bind (reads_blockItems hl _) fun _ hr =>
    reads_bind reads_expect fun _ _ => reads_pure (I.block_mk hr.1 hr.2)

theorem reads_withRoom (I : Invariant P) (room : Nat) : (withRoom room).Reads I := by
  induction room with
  | zero => exact ⟨fun _ => reads_failHere, fun _ => reads_failHere, fun _ => reads_failHere⟩
  | succ room ih =>
    exact ⟨fun _ => reads_enter (reads_unaryBody ih), fun _ => reads_enter (reads_blockBody ih),
      fun _ => reads_enter (reads_branchBody ih)⟩

end
end Level

/-! ### Fragments -/

section
variable {P : Token → Prop}

theorem Cursor.recover_rest {tokens : List Token} (h : ∀ t ∈ tokens, P t) (previous : Span) (depth : Nat) :
    ∀ t ∈ (recover tokens previous depth).rest, P t := by
  induction tokens generalizing previous depth with
  | nil => exact h
  | cons t ts ih =>
    have behind : ∀ t ∈ ts, P t := fun t ht => h t (.tail _ ht)
    unfold recover
    split
    · exact h
    · exact ih behind _ _
    · split
      · exact behind
      · exact ih behind _ _
    · split
      · exact behind
      · exact ih behind _ _
    all_goals first
      | exact ih behind _ _
      | split
        · exact h
        · exact ih behind _ _

theorem Cursor.advance_rest {c : Cursor} (h : ∀ t ∈ c.rest, P t) : ∀ t ∈ c.advance.rest, P t := by
  unfold advance
  split
  · exact h
  · rename_i first rest hrest
    exact fun t ht => h t (hrest ▸ .tail _ ht)

/-- What a reading gives has the property. -/
theorem Reading.ofCursor_reads (I : Invariant P) (fuel : Nat) {c : Cursor} (h : ∀ t ∈ c.rest, P t) :
    (∀ s ∈ (ofCursor fuel c).stmts, I.stmt s) ∧ ∀ e ∈ (ofCursor fuel c).tail, I.expr e := by
  have nothing : (∀ s ∈ ([] : List Stmt), I.stmt s) ∧ ∀ e ∈ (none : Option Expr), I.expr e :=
    ⟨fun _ h => (nomatch h), fun _ h => (nomatch h)⟩
  induction fuel generalizing c with
  | zero => exact nothing
  | succ fuel ih =>
    unfold ofCursor
    split
    · exact nothing
    split
    · exact ih (Cursor.advance_rest h)
    have read : Parser.Reads P (Level.top.item true) (Level.Item.Has I) :=
      Level.reads_item (Level.reads_withRoom I maxNesting)
    have read := read { c with peak := 0 } h
    split
    · rename_i s after hitem
      rw [hitem] at read
      have behind := ih read.1
      exact ⟨List.forall_mem_cons.mpr ⟨read.2, behind.1⟩, behind.2⟩
    · rename_i e after hitem
      rw [hitem] at read
      split
      · exact ⟨(ih read.1).1, fun _ he => Option.some.inj he ▸ read.2⟩
      · exact ih (Cursor.recover_rest read.1 _ _)
    · rename_i e after hitem
      rw [hitem] at read
      exact ih (Cursor.recover_rest read _ _)

/-- What a fragment consists of has the property. -/
theorem Fragment.ofTokens_reads (I : Invariant P) {tokens : List Token} (htokens : ∀ t ∈ tokens, P t) {f : Fragment}
    (h : ofTokens tokens = .ok f) : (∀ s ∈ f.stmts, I.stmt s) ∧ ∀ e ∈ f.tail, I.expr e := by
  simp only [ofTokens] at h
  split at h
  · cases h
    exact Reading.ofCursor_reads I (c := ⟨tokens, ⟨0, 0⟩, 0⟩) tokens.length htokens
  · cases h

end

end ScriptEngine.Tree
