import ScriptEngine.Proofs.ReaderOutcomes
import ScriptEngine.Proofs.Sequencing

/-! Where a brace may open a block. Right behind a condition an open brace opens the body, so a condition is read without
    block expressions. Parentheses, arguments and list elements allow them again; blocks and indices do not, so they are not
    read in a condition as they are read elsewhere. How far the readings differ is said by `Parser.Notices`: the one without
    block expressions is the same, or it stops before an open brace, and then what the other one reads has a block
    expression in it (`Level.braces_noticed`). -/

namespace ScriptEngine.Tree

/-! ### Block expressions in a tree -/

mutual

/-- A block expression opens in an expression, outside of arguments, list elements and conditions. -/
def Expr.opens : Expr → Bool
  | .name _ | .path .. | .literal .. | .list .. => false
  | .binary _ left right _ => left.opens || right.opens
  | .unary _ operand _ => operand.opens
  | .call callee _ _ => callee.opens
  | .index base position _ => base.opens || position.opens
  | .branch b => b.opens
  | .block _ => true

def Expr.opensIfAny : Option Expr → Bool
  | none => false
  | some e => e.opens

def Branch.opens : Branch → Bool
  | .mk _ body otherwise _ => body.opens || otherwise.opens

def Otherwise.opens : Otherwise → Bool
  | .nothing => false
  | .block b => b.opens
  | .branch b => b.opens

def Stmt.opens : Stmt → Bool
  | .bind _ _ value _ | .ret value _ => Expr.opensIfAny value
  | .assign _ value _ => value.opens
  | .setIndex base position value _ => base.opens || position.opens || value.opens
  | .func _ _ body _ => body.opens
  | .eval e => e.opens
  | .loop _ body _ => body.opens
  | .leave _ | .next _ => false

def Stmt.opensAny : List Stmt → Bool
  | [] => false
  | s :: rest => s.opens || Stmt.opensAny rest

/-- A block expression opens inside of a block. -/
def Block.opens : Block → Bool
  | .mk stmts tail _ => Stmt.opensAny stmts || Expr.opensIfAny tail

end

attribute [simp] Expr.opens Expr.opensIfAny Branch.opens Otherwise.opens Stmt.opens Stmt.opensAny Block.opens

def Level.Item.opens : Item → Bool
  | .stmt s => s.opens
  | .tail e => e.opens

theorem Level.opens_applyUnary (op : UnaryOp) (start : Nat) (e : Expr) : (applyUnary op start e).opens = e.opens := by
  unfold applyUnary
  split
  all_goals rfl

/-! ### Two readings -/

namespace Parser

/-- A reader stops before an open brace, where it wants an expression. -/
def Balks {α : Type} (p : Parser α) (c : Cursor) : Prop :=
  ∃ c', p c = .error ⟨.expectedExpression, c'.span⟩ c' ∧ c'.lexeme = .mark .openBrace

/-- Without block expressions a reader does the same as with them; or it stops before an open brace, and if it reads
    anything with them, then something in which a block expression opens. -/
def Notices {α : Type} (opens : α → Bool) (p : Bool → Parser α) (c : Cursor) : Prop :=
  p false c = p true c ∨ Balks (p false) c ∧ Gets (p true) c fun a _ => opens a = true

section
variable {α β : Type} {P : α → Bool} {Q : β → Bool} {p q : Bool → Parser α} {f : Bool → α → Parser β} {c : Cursor}

theorem gets_any {p : Parser α} : Gets p c fun _ _ => True := by
  unfold Gets Comes
  split
  all_goals trivial

theorem notices_same {p : Parser α} : Notices P (fun _ => p) c := .inl rfl

theorem notices_bind (hp : Notices P p c) (hf : ∀ a c', Notices Q (fun braces => f braces a) c')
    (keeps : ∀ a c', P a = true → Gets (f true a) c' fun b _ => Q b = true) :
    Notices Q (fun braces => p braces >>= f braces) c := by
  have bound (braces : Bool) : (p braces >>= f braces) c = EStateM.bind (p braces) (f braces) c := rfl
  obtain same | ⟨⟨c', balks, hbrace⟩, gets⟩ := hp
  · unfold Notices Balks Gets Comes
    simp only [bound, EStateM.bind, same]
    cases p true c with
    | ok a c' => exact hf a c'
    | error e c' => exact .inl rfl
  · refine .inr ⟨⟨c', (bound false).trans ?_, hbrace⟩, comes_bind gets keeps⟩
    rw [EStateM.bind, balks]

/-- What is read first has nothing to do with braces. -/
theorem notices_then {p : Parser α} (hf : ∀ a c', Notices Q (fun braces => f braces a) c') :
    Notices Q (fun braces => p >>= f braces) c :=
  notices_bind (P := fun _ => false) notices_same hf fun _ _ h => (nomatch h)

theorem notices_get {f : Bool → Cursor → Parser α} (h : Notices P (fun braces => f braces c) c) :
    Notices P (fun braces => get >>= f braces) c := h

theorem notices_ite {b : Prop} [Decidable b] (hp : Notices P p c) (hq : Notices P q c) :
    Notices P (fun braces => if b then p braces else q braces) c := by
  split
  · exact hp
  · exact hq

end
end Parser

open ScriptEngine.Tree.Parser

/-- The readers of a level notice whether a brace may open a block in this way only. -/
structure Level.Notices (l : Level) : Prop where
  unary (c : Cursor) : Parser.Notices Expr.opens l.unary c
  block (c : Cursor) : Parser.Notices Block.opens l.block c
  branch (c : Cursor) : Parser.Notices Branch.opens l.branch c

namespace Level

section
variable {l : Level} {braces : Bool} {c : Cursor}

/-! ### What is read later keeps block expressions -/

theorem climb_opens (fuel least : Nat) {left : Expr} (hleft : left.opens = true) :
    Gets (l.climb braces fuel least left) c fun e _ => e.opens = true := by
  induction fuel generalizing least left c with
  | zero => exact hleft
  | succ fuel ih =>
    refine comes_get ?_
    split
    · exact hleft
    · refine comes_ite (fun _ => hleft) fun _ => comes_next (comes_openChain ?_)
      refine comes_bind gets_any fun first _ _ => comes_bind gets_any fun right _ _ => ?_
      exact comes_closeChain (comes_deepen (fun _ => ih _ (by rw [Expr.opens, hleft, Bool.true_or])) trivial)

theorem suffixes_opens (fuel : Nat) {e : Expr} (he : e.opens = true) :
    Gets (l.suffixes braces fuel e) c fun e _ => e.opens = true := by
  induction fuel generalizing e c with
  | zero => exact he
  | succ fuel ih =>
    refine comes_takeMark (fun _ => ?_) (comes_takeMark (fun _ => ?_) he)
    · exact comes_bind gets_any fun _ _ _ => comes_deepen (fun _ => ih he) trivial
    · refine comes_bind gets_any fun position _ _ => comes_expect (fun _ => ?_) trivial
      exact comes_deepen (fun _ => ih (by rw [Expr.opens, he, Bool.true_or])) trivial

/-! ### Expressions -/

theorem notices_climb (hl : l.Notices) (fuel least : Nat) (left : Expr) (c : Cursor) :
    Parser.Notices Expr.opens (fun braces => l.climb braces fuel least left) c := by
  induction fuel generalizing least left c with
  | zero => exact notices_same
  | succ fuel ih =>
    refine notices_then fun here c => ?_
    split
    · exact notices_same
    · rename_i op _
      refine notices_ite notices_same (notices_then fun _ c => notices_then fun outer c => ?_)
      have node {right : Expr} {c : Cursor} (hright : right.opens = true) : Gets (do
          closeChain outer
          deepen
          l.climb true fuel least (.binary op left right (left.span.cover right.span))) c fun e _ => e.opens = true :=
        comes_closeChain (comes_deepen (fun _ => climb_opens _ _ (by rw [Expr.opens, hright, Bool.or_true])) trivial)
      refine notices_bind (hl.unary c) (fun first c => ?_) fun first c hfirst => ?_
      · refine notices_bind (ih _ first c) (fun right c => ?_) fun right c hright => node hright
        exact notices_then fun _ c => notices_then fun _ c => ih least _ c
      · exact comes_bind (climb_opens _ _ hfirst) fun right c hright => node hright

theorem notices_expression (hl : l.Notices) (c : Cursor) : Parser.Notices Expr.opens l.expression c := by
  refine notices_then fun outer c => notices_bind (hl.unary c) (fun first c => ?_) fun first c hfirst => ?_
  · refine notices_then fun here c => notices_bind (notices_climb hl _ _ first c) (fun e c => notices_same) ?_
    exact fun e c he => comes_closeChain he
  · exact comes_get (comes_bind (climb_opens _ _ hfirst) fun e c he => comes_closeChain he)

/-! ### Operands -/

/-- At an open brace the readings part; everywhere else an operand begins in the same way. -/
theorem notices_primary (hl : l.Notices) (c : Cursor) : Parser.Notices Expr.opens l.primary c := by
  refine notices_then fun conditional c => notices_ite ?_ ?_
  · exact notices_bind (hl.branch c) (fun b c => notices_same) fun b c hb => hb
  refine notices_get ?_
  by_cases hbrace : c.lexeme = .mark .openBrace
  · have block : Gets (l.block true >>= fun b => pure (Expr.block b)) c fun e _ => e.opens = true :=
      comes_bind gets_any fun b c _ => rfl
    have here : c.atMark .openBrace = true := by
      rw [Cursor.atMark, hbrace]
      rfl
    refine .inr ⟨⟨c, ?_, hbrace⟩, comes_ite (fun _ => block) fun h => absurd here h⟩
    obtain ⟨_ | ⟨⟨lexeme, span⟩, ts⟩, previous, peak⟩ := c
    · cases hbrace
    · cases hbrace
      rfl
  · have elsewhere : c.atMark .openBrace = false :=
      Bool.eq_false_iff.mpr fun h => hbrace (Cursor.lexeme_of_atMark h)
    simp only [elsewhere, Bool.and_false]
    exact notices_same

theorem notices_suffixes (hl : l.Notices) (fuel : Nat) (e : Expr) (c : Cursor) :
    Parser.Notices Expr.opens (fun braces => l.suffixes braces fuel e) c := by
  induction fuel generalizing e c with
  | zero => exact notices_same
  | succ fuel ih =>
    refine notices_then fun called c => notices_ite ?_ (notices_then fun indexed c => notices_ite ?_ notices_same)
    · exact notices_then fun r c => notices_then fun _ c => ih _ c
    · refine notices_bind (notices_expression hl c) (fun position c => ?_) fun position c hposition => ?_
      · exact notices_then fun _ c => notices_then fun _ c => ih _ c
      · refine comes_expect (fun _ => comes_deepen (fun _ => suffixes_opens _ ?_) trivial) trivial
        rw [Expr.opens, hposition, Bool.or_true]

theorem notices_operand (hl : l.Notices) (c : Cursor) : Parser.Notices Expr.opens l.operand c := by
  refine notices_then fun outer c => notices_bind (notices_primary hl c) (fun first c => ?_) fun first c hfirst => ?_
  · refine notices_then fun here c => notices_bind (notices_suffixes hl _ first c) (fun e c => notices_same) ?_
    exact fun e c he => comes_closeChain he
  · exact comes_get (comes_bind (suffixes_opens _ hfirst) fun e c he => comes_closeChain he)

theorem notices_unaryBody (hl : l.Notices) (c : Cursor) : Parser.Notices Expr.opens l.unaryBody c := by
  refine notices_then fun here c => ?_
  split
  · refine notices_then fun _ c => notices_bind (hl.unary c) (fun e c => notices_same) fun e c he => ?_
    exact (opens_applyUnary ..).trans he
  · exact notices_operand hl c

/-! ### Conditionals -/

theorem notices_otherwise (hl : l.Notices) (c : Cursor) : Parser.Notices Otherwise.opens l.otherwise c := by
  refine notices_then fun _ c => notices_ite (notices_then fun _ c => notices_ite ?_ ?_) notices_same
  · exact notices_bind (hl.branch c) (fun b c => notices_same) fun b c hb => hb
  · exact notices_bind (hl.block c) (fun b c => notices_same) fun b c hb => hb

/-- The condition itself never has block expressions. -/
theorem notices_branchBody (hl : l.Notices) (c : Cursor) : Parser.Notices Branch.opens l.branchBody c := by
  refine notices_then fun here c => notices_then fun condition c => ?_
  refine notices_bind (hl.block c) (fun body c => ?_) fun body c hbody => ?_
  · refine notices_bind (notices_otherwise hl c) (fun o c => notices_same) fun o c ho => ?_
    exact (congrArg (body.opens || ·) ho).trans (Bool.or_true _)
  · exact comes_bind gets_any fun o c _ => (congrArg (· || o.opens) hbody).trans (Bool.true_or _)

/-! ### Statements -/

theorem notices_bindStmt (hl : l.Notices) (start : Nat) (c : Cursor) :
    Parser.Notices Stmt.opens (fun braces => l.bindStmt braces start) c := by
  refine notices_then fun _ c => notices_then fun name c => notices_then fun _ c => notices_ite ?_ notices_same
  refine notices_bind (notices_expression hl c) (fun value c => notices_same) fun value c hvalue => ?_
  exact comes_expect (fun _ => hvalue) trivial

theorem notices_funcStmt (hl : l.Notices) (start : Nat) (c : Cursor) :
    Parser.Notices Stmt.opens (fun braces => l.funcStmt braces start) c := by
  have body {name : Ident} (names : List Ident) (c : Cursor) : Parser.Notices Stmt.opens (fun braces => do
      let _ ← expect .closeParen
      let body ← l.block braces
      return Stmt.func name names body ⟨start, body.span.stop⟩) c :=
    notices_then fun _ c => notices_bind (hl.block c) (fun _ _ => notices_same) fun _ _ hbody => hbody
  refine notices_then fun name c => notices_then fun _ c => notices_then fun here c => notices_ite (body [] c) ?_
  exact notices_then fun here c => notices_then fun names c => body names c

theorem notices_retStmt (hl : l.Notices) (start : Nat) (c : Cursor) :
    Parser.Notices Stmt.opens (fun braces => l.retStmt braces start) c := by
  refine notices_then fun here c => notices_ite notices_same ?_
  refine notices_bind (notices_expression hl c) (fun value c => notices_same) fun value c hvalue => ?_
  exact comes_expect (fun _ => hvalue) trivial

theorem notices_loopStmt (hl : l.Notices) (start : Nat) (c : Cursor) :
    Parser.Notices Stmt.opens (fun braces => l.loopStmt braces start) c :=
  notices_then fun _ c => notices_bind (hl.block c) (fun _ _ => notices_same) fun _ _ hbody => hbody

theorem notices_assignStmt (hl : l.Notices) (target : Expr) (c : Cursor) :
    Parser.Notices Stmt.opens (fun braces => l.assignStmt braces target) c := by
  unfold assignStmt
  split
  · refine notices_bind (notices_expression hl c) (fun value c => notices_same) fun value c hvalue => ?_
    exact comes_expect (fun _ => hvalue) trivial
  · rename_i base position _
    refine notices_bind (notices_expression hl c) (fun value c => notices_same) fun value c hvalue => ?_
    exact comes_expect (fun _ => (congrArg (base.opens || position.opens || ·) hvalue).trans (Bool.or_true _)) trivial
  · exact notices_same

/-- The target of an assignment is part of it. -/
theorem assignStmt_opens {target : Expr} (h : target.opens = true) :
    Gets (l.assignStmt braces target) c fun s _ => s.opens = true := by
  unfold assignStmt
  split
  · cases h
  · refine comes_bind gets_any fun value c _ => comes_expect (fun _ => ?_) trivial
    exact (congrArg (· || value.opens) h).trans (Bool.true_or _)
  · trivial

theorem notices_exprItem (hl : l.Notices) (c : Cursor) : Parser.Notices Item.opens l.exprItem c := by
  refine notices_bind (notices_expression hl c) (fun e c => ?_) fun e c he => ?_
  · refine notices_then fun _ c => notices_ite ?_ notices_same
    exact notices_bind (notices_assignStmt hl e c) (fun s c => notices_same) fun s c hs => hs
  · refine comes_takeMark (fun _ => ?_) (comes_takeMark (fun _ => he) (comes_get (comes_ite (fun _ => he) fun _ => he)))
    exact comes_bind (assignStmt_opens he) fun s c hs => hs

theorem notices_item (hl : l.Notices) (c : Cursor) : Parser.Notices Item.opens l.item c := by
  have stmt {p : Bool → Parser Stmt} {c : Cursor} (hp : Parser.Notices Stmt.opens p c) :
      Parser.Notices Item.opens (fun braces => p braces >>= fun s => pure (Item.stmt s)) c :=
    notices_bind hp (fun s c => notices_same) fun s c hs => hs
  refine notices_then fun here c => ?_
  split
  · exact notices_then fun _ c => stmt (notices_bindStmt hl _ c)
  · exact notices_then fun _ c => stmt (notices_funcStmt hl _ c)
  · exact notices_then fun _ c => stmt (notices_retStmt hl _ c)
  · exact notices_then fun _ c => stmt (notices_loopStmt hl _ c)
  · exact notices_same
  · exact notices_same
  · exact notices_exprItem hl c

theorem notices_blockItems (hl : l.Notices) (fuel : Nat) (c : Cursor) :
    Parser.Notices (fun r => Stmt.opensAny r.1 || Expr.opensIfAny r.2) (fun braces => l.blockItems braces fuel) c := by
  induction fuel generalizing c with
  | zero => exact notices_same
  | succ fuel ih =>
    refine notices_then fun here c => notices_ite notices_same (notices_then fun _ c => notices_ite (ih c) ?_)
    refine notices_bind (notices_item hl c) (fun item c => ?_) fun item c hitem => ?_
    · cases item with
      | tail e => exact notices_same
      | stmt s =>
        refine notices_bind (ih c) (fun r c => notices_same) fun r c hr => ?_
        exact (Bool.or_assoc ..).trans ((congrArg (s.opens || ·) hr).trans (Bool.or_true _))
    · cases item with
      | tail e => exact hitem
      | stmt s =>
        refine comes_bind gets_any fun r c _ => ?_
        have first : s.opens = true := hitem
        show (s.opens || Stmt.opensAny r.1 || Expr.opensIfAny r.2) = true
        rw [first, Bool.true_or, Bool.true_or]

theorem notices_blockBody (hl : l.Notices) (c : Cursor) : Parser.Notices Block.opens l.blockBody c := by
  refine notices_then fun _ c => notices_then fun here c => ?_
  refine notices_bind (notices_blockItems hl _ c) (fun r c => notices_same) fun r c hr => ?_
  exact comes_expect (fun _ => hr) trivial

/-! ### All levels -/

theorem notices_floor : floor.Notices where
  unary _ := notices_same
  block _ := notices_same
  branch _ := notices_same

theorem notices_around (hl : l.Notices) : l.around.Notices where
  unary _ := notices_then fun _ => notices_unaryBody hl
  block _ := notices_then fun _ => notices_blockBody hl
  branch _ := notices_then fun _ => notices_branchBody hl

theorem notices_withRoom (room : Nat) : (withRoom room).Notices := by
  induction room with
  | zero => exact notices_floor
  | succ room ih => exact notices_around ih

/-! ### Bracketed syntax in conditions -/

/-- Parentheses and lists begin in the same way whether a brace may open a block or not. -/
theorem primary_same (l : Level) (hc : c.lexeme = .mark .openParen ∨ c.lexeme = .mark .openBracket) :
    l.primary false c = l.primary true c := by
  obtain ⟨_ | ⟨⟨lexeme, span⟩, ts⟩, previous, peak⟩ := c
  · obtain h | h := hc
    all_goals cases h
  · obtain h | h := hc
    all_goals
      cases h
      rfl

/-- Arguments are read by one reader whether a brace may open a block or not. -/
theorem suffixes_call (l : Level) (braces : Bool) (fuel : Nat) (e : Expr) (hc : c.lexeme = .mark .openParen) :
    l.suffixes braces (fuel + 1) e c = (do
      let r ← l.closedItems .closeParen
      deepen
      l.suffixes braces fuel (.call e r.1 ⟨e.span.start, r.2⟩) : Parser Expr) c.advance := by
  obtain ⟨_ | ⟨⟨lexeme, span⟩, ts⟩, previous, peak⟩ := c
  · cases hc
  · cases hc
    rfl

/-- What is read at any level and place, in a condition and elsewhere. Parentheses and lists begin in the same way, and
    arguments are read by one reader. A block, a conditional, and an index or whatever else follows an operand are read
    in a condition as elsewhere, or reading stops before an open brace that wants to be an expression, and then what is
    read there elsewhere has a block expression in it. So an expression in which none opens is read as a condition just as
    it is read elsewhere, and what is read as a condition is read in the same way elsewhere. -/
theorem braces_noticed (room : Nat) (c : Cursor) :
    (c.lexeme = .mark .openParen ∨ c.lexeme = .mark .openBracket →
      (withRoom room).primary false c = (withRoom room).primary true c) ∧
    (∀ braces fuel e, c.lexeme = .mark .openParen → (withRoom room).suffixes braces (fuel + 1) e c = (do
      let r ← (withRoom room).closedItems .closeParen
      deepen
      (withRoom room).suffixes braces fuel (.call e r.1 ⟨e.span.start, r.2⟩) : Parser Expr) c.advance) ∧
    Parser.Notices Block.opens (withRoom room).block c ∧
    Parser.Notices Branch.opens (withRoom room).branch c ∧
    (∀ fuel e, Parser.Notices Expr.opens (fun braces => (withRoom room).suffixes braces fuel e) c) ∧
    (∀ e c', (withRoom room).expression true c = .ok e c' → e.opens = false →
      (withRoom room).condition c = .ok e c') ∧
    ∀ e c', (withRoom room).condition c = .ok e c' → (withRoom room).expression true c = .ok e c' := by
  have hl := notices_withRoom room
  refine ⟨primary_same _, fun braces fuel e => suffixes_call _ braces fuel e, hl.block c, hl.branch c,
    fun fuel e => notices_suffixes hl fuel e c, fun e c' hread hopens => ?_, fun e c' hread => ?_⟩
  · obtain same | ⟨-, gets⟩ := notices_expression hl c
    · exact same.trans hread
    · rw [gets.ok hread] at hopens
      cases hopens
  · obtain same | ⟨⟨_, balks, -⟩, -⟩ := notices_expression hl c
    · exact same.symm.trans hread
    · cases hread.symm.trans balks

/-- A conditional in whose body a block expression opens can be read, but not as a condition. One with block expressions
    among arguments and list elements only is the same as a condition. -/
theorem braces_noticed_nested :
    (∃ tokens e c', Lexer.tokenize "if a \x7b \x7b b \x7d \x7d else \x7b c \x7d".toList = .ok tokens ∧
      top.expression true ⟨tokens, ⟨0, 0⟩, 0⟩ = .ok e c' ∧ e.opens = true ∧ Balks top.condition ⟨tokens, ⟨0, 0⟩, 0⟩) ∧
    ∃ tokens e c', Lexer.tokenize "if a \x7b f(\x7b b \x7d) \x7d else \x7b [\x7b c \x7d] \x7d".toList = .ok tokens ∧
      top.expression true ⟨tokens, ⟨0, 0⟩, 0⟩ = .ok e c' ∧ e.opens = false ∧
      top.condition ⟨tokens, ⟨0, 0⟩, 0⟩ = .ok e c' := by
  constructor
  · have computes : ((Lexer.tokenize "if a \x7b \x7b b \x7d \x7d else \x7b c \x7d".toList).toOption.any fun tokens =>
        match top.expression true ⟨tokens, ⟨0, 0⟩, 0⟩, top.condition ⟨tokens, ⟨0, 0⟩, 0⟩ with
        | .ok e _, .error .. => e.opens
        | _, _ => false) = true := by decide +kernel
    obtain ⟨tokens, htokens, hread⟩ := (Option.any_eq_true ..).mp computes
    split at hread
    · rename_i e c' _ _ hexpression hcondition
      refine ⟨tokens, e, c', except_toOption_eq_some.mp htokens, hexpression, hread, ?_⟩
      obtain same | ⟨balks, -⟩ := notices_expression (notices_withRoom maxNesting) ⟨tokens, ⟨0, 0⟩, 0⟩
      · cases hexpression.symm.trans (same.symm.trans hcondition)
      · exact balks
    · cases hread
  · have computes : ((Lexer.tokenize "if a \x7b f(\x7b b \x7d) \x7d else \x7b [\x7b c \x7d] \x7d".toList).toOption.any
        fun tokens =>
          match top.expression true ⟨tokens, ⟨0, 0⟩, 0⟩ with
          | .ok e _ => !e.opens
          | .error .. => false) = true := by decide +kernel
    obtain ⟨tokens, htokens, hread⟩ := (Option.any_eq_true ..).mp computes
    split at hread
    · rename_i e c' hexpression
      have hopens := (Bool.not_eq_true' _).mp hread
      obtain ⟨-, -, -, -, -, as_condition, -⟩ := braces_noticed maxNesting ⟨tokens, ⟨0, 0⟩, 0⟩
      exact ⟨tokens, e, c', except_toOption_eq_some.mp htokens, hexpression, hopens, as_condition e c' hexpression hopens⟩
    · cases hread

end
end Level
end ScriptEngine.Tree
