import ScriptEngine.Console.Command
import ScriptEngine.Proofs.ReaderOutcomes
import ScriptEngine.Proofs.ReaderSteps
import ScriptEngine.Proofs.Sequencing
import ScriptEngine.Proofs.SourceTokens

/-! Brackets of what can be read. A reader that succeeds has closed every bracket that it opened, by its counterpart and in
    the right order (`Level.Balances`). So a text that can be read leaves no bracket open, and the console submits it
    instead of waiting for more lines (`Console.isComplete_of_parse`). -/

namespace ScriptEngine

/-! ### Brackets -/

namespace Mark

/-- The mark that closes what a bracket opens. -/
def closer? : Mark → Option Mark
  | openParen => some closeParen
  | openBrace => some closeBrace
  | openBracket => some closeBracket
  | _ => none

def isCloser : Mark → Bool
  | closeParen | closeBrace | closeBracket => true
  | _ => false

/-- A mark opens, closes, or is no bracket. -/
theorem bracket_cases (m : Mark) :
    (∃ close, m.closer? = some close ∧ Console.bracketChange (.mark m) = 1) ∨
    (m.closer? = none ∧ m.isCloser = true ∧ Console.bracketChange (.mark m) = -1) ∨
    (m.closer? = none ∧ m.isCloser = false ∧ Console.bracketChange (.mark m) = 0) := by
  cases m with
  | openParen | openBrace | openBracket => exact .inl ⟨_, rfl, rfl⟩
  | closeParen | closeBrace | closeBracket => exact .inr (.inl ⟨rfl, rfl, rfl⟩)
  | _ => exact .inr (.inr ⟨rfl, rfl, rfl⟩)

end Mark

namespace Lexeme

/-- Neither a bracket nor the end of input. -/
def isPlain : Lexeme → Bool
  | endOfInput => false
  | mark m => m.closer?.isNone && !m.isCloser
  | _ => true

/-- Up to the end of input every bracket is closed by its counterpart, the latest first. The marks are awaited by brackets
    that were opened before, the latest first as well. -/
def balanced : List Mark → List Lexeme → Bool
  | awaited, [] => awaited.isEmpty
  | awaited, endOfInput :: _ => awaited.isEmpty
  | awaited, mark m :: rest =>
    match m.closer? with
    | some close => balanced (close :: awaited) rest
    | none => if m.isCloser then awaited.head? = some m && balanced awaited.tail rest else balanced awaited rest
  | awaited, _ :: rest => balanced awaited rest

variable {awaited : List Mark} {m close : Mark} {rest : List Lexeme}

theorem balanced_open (h : m.closer? = some close) :
    balanced awaited (mark m :: rest) = balanced (close :: awaited) rest := by
  rw [balanced, h]

theorem balanced_closer (hopen : m.closer? = none) (hclose : m.isCloser = true) :
    balanced awaited (mark m :: rest) = (decide (awaited.head? = some m) && balanced awaited.tail rest) := by
  rw [balanced, hopen]
  dsimp only
  rw [if_pos hclose]

theorem balanced_close (h : m.isCloser = true) : balanced (m :: awaited) (mark m :: rest) = balanced awaited rest := by
  have hopen : m.closer? = none := by
    cases m with
    | closeParen | closeBrace | closeBracket => rfl
    | _ => cases h
  rw [balanced_closer hopen h, List.head?_cons, decide_eq_true rfl, Bool.true_and, List.tail_cons]

theorem balanced_plain {x : Lexeme} (h : x.isPlain = true) : balanced awaited (x :: rest) = balanced awaited rest := by
  cases x with
  | endOfInput => cases h
  | mark m =>
    obtain ⟨hopen, hclose⟩ := Bool.and_eq_true_iff.mp h
    rw [balanced, Option.isNone_iff_eq_none.mp hopen]
    dsimp only
    rw [if_neg]
    intro hcloser
    rw [hcloser] at hclose
    cases hclose
  | _ => rfl

end Lexeme

namespace Tree

/-! ### Places among brackets -/

/-- Whether the tokens from this place on are balanced, with these marks awaited, is as the verdict says; and there are at
    most so many of them. -/
def Cursor.Owes (c : Cursor) (verdict : Bool) (awaited : List Mark) (bound : Nat) : Prop :=
  Lexeme.balanced awaited c.lexemes = verdict ∧ c.rest.length ≤ bound

namespace Cursor.Owes

variable {c : Cursor} {verdict : Bool} {awaited : List Mark} {m close : Mark} {n : Nat} {x : Lexeme}

theorem more (h : c.Owes verdict awaited n) : c.Owes verdict awaited (n + 1) := ⟨h.1, Nat.le_succ_of_le h.2⟩

/-- A step over a token that is no bracket. -/
theorem step (h : c.Owes verdict awaited (n + 1)) (hx : c.lexeme = x) (hplain : x.isPlain = true) :
    c.advance.Owes verdict awaited n := by
  obtain ⟨rest, previous, peak⟩ := c
  subst hx
  cases rest with
  | nil => cases hplain
  | cons t ts => exact ⟨(Lexeme.balanced_plain hplain).symm.trans h.1, Nat.le_of_succ_le_succ h.2⟩

theorem opens (h : c.Owes verdict awaited (n + 1)) (hx : c.lexeme = .mark m) (hm : m.closer? = some close) :
    c.advance.Owes verdict (close :: awaited) n := by
  obtain ⟨rest, previous, peak⟩ := c
  cases rest with
  | nil => cases hx
  | cons t ts =>
    obtain ⟨lexeme, span⟩ := t
    cases hx
    exact ⟨(Lexeme.balanced_open hm).symm.trans h.1, Nat.le_of_succ_le_succ h.2⟩

theorem closes (h : c.Owes verdict (m :: awaited) (n + 1)) (hx : c.lexeme = .mark m) (hm : m.isCloser = true) :
    c.advance.Owes verdict awaited n := by
  obtain ⟨rest, previous, peak⟩ := c
  cases rest with
  | nil => cases hx
  | cons t ts =>
    obtain ⟨lexeme, span⟩ := t
    cases hx
    exact ⟨(Lexeme.balanced_close hm).symm.trans h.1, Nat.le_of_succ_le_succ h.2⟩

/-- At the end of input no bracket may be open. -/
theorem atEnd (h : c.Owes verdict [] n) (hend : c.atEnd = true) : verdict = true := by
  obtain ⟨rest, previous, peak⟩ := c
  cases rest with
  | nil => exact h.1.symm
  | cons t ts =>
    obtain ⟨lexeme, span⟩ := t
    cases lexeme with
    | endOfInput => exact h.1.symm
    | _ => cases hend

end Cursor.Owes

open ScriptEngine.Tree.Parser

/-- What the readers of a level read is balanced, and all but the rest of a conditional takes at least one token. -/
structure Level.Balances (l : Level) : Prop where
  unary {braces : Bool} {c : Cursor} {verdict : Bool} {awaited : List Mark} {n : Nat} (hc : c.Owes verdict awaited (n + 1)) :
    Gets (l.unary braces) c fun _ c' => c'.Owes verdict awaited n
  block {braces : Bool} {c : Cursor} {verdict : Bool} {awaited : List Mark} {n : Nat} (hc : c.Owes verdict awaited (n + 1)) :
    Gets (l.block braces) c fun _ c' => c'.Owes verdict awaited n
  branch {braces : Bool} {c : Cursor} {verdict : Bool} {awaited : List Mark} {n : Nat} (hc : c.Owes verdict awaited n) :
    Gets (l.branch braces) c fun _ c' => c'.Owes verdict awaited n

namespace Level

theorem plain_of_binaryOp {x : Lexeme} {op : BinaryOp} (h : binaryOp? x = some op) : x.isPlain = true := by
  unfold binaryOp? at h
  split at h
  case h_14 => cases h
  all_goals rfl

theorem plain_of_unaryOp {x : Lexeme} {op : UnaryOp} (h : unaryOp? x = some op) : x.isPlain = true := by
  unfold unaryOp? at h
  split at h
  case h_3 => cases h
  all_goals rfl

section
variable {l : Level} {braces : Bool} {c : Cursor} {verdict : Bool} {awaited : List Mark} {n : Nat}

theorem balances_climb (hl : l.Balances) (fuel least : Nat) {left : Expr} (hc : c.Owes verdict awaited n) :
    Gets (l.climb braces fuel least left) c fun _ c' => c'.Owes verdict awaited n := by
  induction fuel generalizing least left c with
  | zero => exact hc
  | succ fuel ih =>
    refine comes_get ?_
    split
    · exact hc
    · rename_i op hop
      refine comes_ite (fun _ => hc) fun _ => comes_next (comes_openChain ?_)
      have stepped := hc.more.step rfl (plain_of_binaryOp hop)
      refine comes_bind (hl.unary stepped.more) fun first c₁ hfirst => ?_
      refine comes_bind (ih _ hfirst) fun right c₂ hright => ?_
      exact comes_closeChain (comes_deepen (fun _ => ih _ hright) trivial)

theorem balances_expression (hl : l.Balances) (hc : c.Owes verdict awaited (n + 1)) :
    Gets (l.expression braces) c fun _ c' => c'.Owes verdict awaited n :=
  comes_openChain (comes_bind (hl.unary hc) fun _ _ hfirst => comes_get
    (comes_bind (balances_climb hl _ _ hfirst) fun _ _ he => comes_closeChain he))

theorem balances_items (hl : l.Balances) (close : Mark) (fuel : Nat) (hc : c.Owes verdict awaited n) :
    Gets (l.items close fuel) c fun _ c' => c'.Owes verdict awaited n := by
  induction fuel generalizing c with
  | zero => exact hc
  | succ fuel ih =>
    refine comes_get (comes_ite (fun _ => hc) fun _ => ?_)
    refine comes_bind (balances_expression hl hc.more) fun e c₁ he => comes_takeMark (fun hcomma => ?_) he
    exact comes_bind (ih (he.more.step hcomma rfl)) fun _ _ hes => hes

theorem balances_closedItems (hl : l.Balances) {close : Mark} (hclose : close.isCloser = true)
    (hc : c.Owes verdict (close :: awaited) n) :
    Gets (l.closedItems close) c fun _ c' => c'.Owes verdict awaited n :=
  comes_get (comes_bind (balances_items hl close _ hc) fun _ _ hes =>
    comes_expect (fun hmark => hes.more.closes hmark hclose) trivial)

theorem balances_nameOrPath (hc : c.Owes verdict awaited (n + 1)) :
    Gets nameOrPath c fun _ c' => c'.Owes verdict awaited n := by
  refine comes_ident (fun _ hname => ?_) trivial
  have named := hc.step hname rfl
  refine comes_takeMark (fun hcolons => comes_ident (fun _ hmember => ?_) trivial) named
  exact (named.more.step hcolons rfl).more.step hmember rfl

theorem balances_primary (hl : l.Balances) (hc : c.Owes verdict awaited (n + 1)) :
    Gets (l.primary braces) c fun _ c' => c'.Owes verdict awaited n := by
  refine comes_takeKeyword (fun hcond => comes_bind (hl.branch (hc.step hcond rfl)) fun _ _ hb => hb) ?_
  refine comes_get (comes_ite (fun _ => comes_bind (hl.block hc) fun _ _ hb => hb) fun _ => comes_get ?_)
  split
  case h_1 => exact balances_nameOrPath hc
  case h_7 hopen =>
    refine comes_next (comes_bind (balances_expression hl (hc.opens hopen rfl).more) fun _ _ he => ?_)
    exact comes_expect (fun hclose => he.more.closes hclose rfl) trivial
  case h_8 hopen =>
    exact comes_next (comes_bind (balances_closedItems hl rfl (hc.opens hopen rfl)) fun _ _ hes => hes)
  case h_9 => exact trivial
  all_goals exact comes_next (hc.step ‹_› rfl)

theorem balances_suffixes (hl : l.Balances) (fuel : Nat) {e : Expr} (hc : c.Owes verdict awaited n) :
    Gets (l.suffixes braces fuel e) c fun _ c' => c'.Owes verdict awaited n := by
  induction fuel generalizing e c with
  | zero => exact hc
  | succ fuel ih =>
    refine comes_takeMark (fun hopen => ?_) (comes_takeMark (fun hopen => ?_) hc)
    · refine comes_bind (balances_closedItems hl rfl (hc.more.opens hopen rfl)) fun _ _ hargs => ?_
      exact comes_deepen (fun _ => ih hargs) trivial
    · refine comes_bind (balances_expression hl (hc.more.opens hopen rfl).more) fun _ _ hposition => ?_
      refine comes_expect (fun hclose => ?_) trivial
      exact comes_deepen (fun _ => ih (hposition.more.closes hclose rfl)) trivial

theorem balances_operand (hl : l.Balances) (hc : c.Owes verdict awaited (n + 1)) :
    Gets (l.operand braces) c fun _ c' => c'.Owes verdict awaited n :=
  comes_openChain (comes_bind (balances_primary hl hc) fun _ _ hfirst => comes_get
    (comes_bind (balances_suffixes hl _ hfirst) fun _ _ he => comes_closeChain he))

theorem balances_unaryBody (hl : l.Balances) (hc : c.Owes verdict awaited (n + 1)) :
    Gets (l.unaryBody braces) c fun _ c' => c'.Owes verdict awaited n := by
  refine comes_get ?_
  split
  · rename_i op hop
    exact comes_next (comes_bind (hl.unary (hc.step rfl (plain_of_unaryOp hop)).more) fun _ _ he => he)
  · exact balances_operand hl hc

theorem balances_otherwise (hl : l.Balances) (hc : c.Owes verdict awaited n) :
    Gets (l.otherwise braces) c fun _ c' => c'.Owes verdict awaited n := by
  refine comes_takeKeyword (fun helse => ?_) hc
  have stepped := hc.more.step helse rfl
  refine comes_takeKeyword (fun hcond => ?_) ?_
  · exact comes_bind (hl.branch (stepped.more.step hcond rfl)) fun _ _ hb => hb
  · exact comes_bind (hl.block stepped.more) fun _ _ hb => hb

theorem balances_branchBody (hl : l.Balances) (hc : c.Owes verdict awaited n) :
    Gets (l.branchBody braces) c fun _ c' => c'.Owes verdict awaited n := by
  refine comes_get (comes_bind (balances_expression hl hc.more) fun condition c₁ hcondition => ?_)
  refine comes_bind (hl.block hcondition.more) fun body c₂ hbody => ?_
  exact comes_bind (balances_otherwise hl hbody) fun _ _ ho => ho

/-! ### Statements -/

theorem balances_bindStmt (hl : l.Balances) {start : Nat} (hc : c.Owes verdict awaited n) :
    Gets (l.bindStmt braces start) c fun _ c' => c'.Owes verdict awaited n := by
  have named {mutable : Bool} {c' : Cursor} (h : c'.Owes verdict awaited n) : Gets (do
      let name ← ident .expectedBindingName
      if ← takeMark .eq then
        let value ← l.expression braces
        let _ ← expect .semicolon
        return Stmt.bind name mutable (some value) ⟨start, value.span.stop⟩
      else
        let _ ← expect .semicolon
        return Stmt.bind name mutable none ⟨start, name.span.stop⟩) c' fun _ c' => c'.Owes verdict awaited n := by
    refine comes_ident (fun _ hname => ?_) trivial
    have stepped := h.more.step hname rfl
    refine comes_takeMark (fun heq => ?_) (comes_expect (fun hsemicolon => stepped.more.step hsemicolon rfl) trivial)
    refine comes_bind (balances_expression hl (stepped.more.step heq rfl).more) fun _ _ hvalue => ?_
    exact comes_expect (fun hsemicolon => hvalue.more.step hsemicolon rfl) trivial
  exact comes_takeKeyword (fun hmut => named (hc.more.step hmut rfl)) (named hc)

theorem balances_params (fuel : Nat) (hc : c.Owes verdict awaited n) :
    Gets (params fuel) c fun _ c' => c'.Owes verdict awaited n := by
  induction fuel generalizing c with
  | zero => exact hc
  | succ fuel ih =>
    refine comes_ident (fun _ hname => ?_) trivial
    have stepped := hc.more.step hname rfl
    refine comes_takeMark (fun hcomma => ?_) stepped
    have before := stepped.more.step hcomma rfl
    exact comes_get (comes_ite (fun _ => before) fun _ => comes_bind (ih before) fun _ _ hrest => hrest)

theorem balances_funcStmt (hl : l.Balances) {start : Nat} (hc : c.Owes verdict awaited n) :
    Gets (l.funcStmt braces start) c fun _ c' => c'.Owes verdict awaited n := by
  have body {name : Ident} {names : List Ident} {c' : Cursor} (h : c'.Owes verdict (.closeParen :: awaited) n) : Gets (do
      let _ ← expect .closeParen
      let body ← l.block braces
      return Stmt.func name names body ⟨start, body.span.stop⟩) c' fun _ c' => c'.Owes verdict awaited n :=
    comes_expect (fun hclose => comes_bind (hl.block (h.more.closes hclose rfl).more) fun _ _ hbody => hbody) trivial
  refine comes_ident (fun _ hname => comes_expect (fun hopen => comes_get ?_) trivial) trivial
  have before := (hc.more.step hname rfl).more.opens hopen rfl
  refine comes_ite (fun _ => body before) fun _ => ?_
  exact comes_get (comes_bind (balances_params _ before) fun _ _ hnames => body hnames)

theorem balances_retStmt (hl : l.Balances) {start : Nat} (hc : c.Owes verdict awaited n) :
    Gets (l.retStmt braces start) c fun _ c' => c'.Owes verdict awaited n := by
  refine comes_get (comes_ite (fun hsemicolon => ?_) fun _ => ?_)
  · exact comes_next (hc.more.step (Cursor.lexeme_of_atMark hsemicolon) rfl)
  · refine comes_bind (balances_expression hl hc.more) fun _ _ hvalue => ?_
    exact comes_expect (fun hsemicolon => hvalue.more.step hsemicolon rfl) trivial

theorem balances_loopStmt (hl : l.Balances) {start : Nat} (hc : c.Owes verdict awaited n) :
    Gets (l.loopStmt braces start) c fun _ c' => c'.Owes verdict awaited n :=
  comes_bind (balances_expression hl hc.more) fun _ _ hcondition =>
    comes_bind (hl.block hcondition.more) fun _ _ hbody => hbody

theorem balances_assignStmt (hl : l.Balances) {target : Expr} (hc : c.Owes verdict awaited n) :
    Gets (l.assignStmt braces target) c fun _ c' => c'.Owes verdict awaited n := by
  unfold assignStmt
  split
  case h_3 => exact trivial
  all_goals
    refine comes_bind (balances_expression hl hc.more) fun _ _ hvalue => ?_
    exact comes_expect (fun hsemicolon => hvalue.more.step hsemicolon rfl) trivial

theorem balances_exprItem (hl : l.Balances) (hc : c.Owes verdict awaited (n + 1)) :
    Gets (l.exprItem braces) c fun _ c' => c'.Owes verdict awaited n := by
  refine comes_bind (balances_expression hl hc) fun e c₁ he => ?_
  refine comes_takeMark (fun heq => ?_) (comes_takeMark (fun hsemicolon => he.more.step hsemicolon rfl) ?_)
  · exact comes_bind (balances_assignStmt hl (he.more.step heq rfl)) fun _ _ hs => hs
  · exact comes_get (comes_ite (fun _ => he) fun _ => he)

theorem balances_item (hl : l.Balances) (hc : c.Owes verdict awaited (n + 1)) :
    Gets (l.item braces) c fun _ c' => c'.Owes verdict awaited n := by
  have stmt {p : Parser Stmt} {c' : Cursor} (hp : Gets p c' fun _ c' => c'.Owes verdict awaited n) :
      Gets (p >>= fun s => pure (Item.stmt s)) c' fun _ c' => c'.Owes verdict awaited n :=
    comes_bind hp fun _ _ hs => hs
  have control {s : Span → Stmt} {c' : Cursor} (h : c'.Owes verdict awaited n) {span : Span} :
      Gets (expect .semicolon >>= fun _ => pure (Item.stmt (s span))) c' fun _ c' => c'.Owes verdict awaited n :=
    comes_expect (fun hsemicolon => h.more.step hsemicolon rfl) trivial
  refine comes_get ?_
  split
  · exact comes_next (stmt (balances_bindStmt hl (hc.step ‹_› rfl)))
  · exact comes_next (stmt (balances_funcStmt hl (hc.step ‹_› rfl)))
  · exact comes_next (stmt (balances_retStmt hl (hc.step ‹_› rfl)))
  · exact comes_next (stmt (balances_loopStmt hl (hc.step ‹_› rfl)))
  · exact comes_next (control (hc.step ‹_› rfl))
  · exact comes_next (control (hc.step ‹_› rfl))
  · exact balances_exprItem hl hc

theorem balances_blockItems (hl : l.Balances) (fuel : Nat) (hc : c.Owes verdict awaited n) :
    Gets (l.blockItems braces fuel) c fun _ c' => c'.Owes verdict awaited n := by
  induction fuel generalizing c with
  | zero => exact hc
  | succ fuel ih =>
    refine comes_get (comes_ite (fun _ => hc) fun _ => comes_takeMark (fun hsemicolon => ?_) ?_)
    · exact ih (hc.more.step hsemicolon rfl)
    · refine comes_bind (balances_item hl hc.more) fun item c₁ hitem => ?_
      cases item with
      | tail e => exact hitem
      | stmt s => exact comes_bind (ih hitem) fun _ _ hr => hr

theorem balances_blockBody (hl : l.Balances) (hc : c.Owes verdict awaited (n + 1)) :
    Gets (l.blockBody braces) c fun _ c' => c'.Owes verdict awaited n := by
  refine comes_expect (fun hopen => comes_get ?_) trivial
  refine comes_bind (balances_blockItems hl _ (hc.opens hopen rfl)) fun _ _ hr => ?_
  exact comes_expect (fun hclose => hr.more.closes hclose rfl) trivial

/-! ### All levels -/

theorem balances_floor : floor.Balances where
  unary _ := trivial
  block _ := trivial
  branch _ := trivial

theorem balances_around (hl : l.Balances) : l.around.Balances where
  unary hc := comes_enter (balances_unaryBody hl hc)
  block hc := comes_enter (balances_blockBody hl hc)
  branch hc := comes_enter (balances_branchBody hl hc)

theorem balances_withRoom (room : Nat) : (withRoom room).Balances := by
  induction room with
  | zero => exact balances_floor
  | succ room ih => exact balances_around ih

end
end Level

/-! ### Fragments -/

/-- With a unit of fuel for each token, a reading without errors finds all brackets closed. -/
theorem Reading.ofCursor_balanced {verdict : Bool} {fuel : Nat} {c : Cursor} (hc : c.Owes verdict [] fuel)
    (h : (ofCursor fuel c).errors = []) : verdict = true := by
  induction fuel generalizing c with
  | zero =>
    have none : c.rest = [] := List.eq_nil_of_length_eq_zero (Nat.le_zero.mp hc.2)
    exact hc.atEnd (by rw [Cursor.atEnd, Cursor.lexeme, none]; rfl)
  | succ fuel ih =>
    unfold ofCursor at h
    split at h
    · exact hc.atEnd ‹_›
    split at h
    · exact ih (hc.step (Cursor.lexeme_of_atMark ‹_›) rfl) h
    have hitem : Gets (Level.top.item true) { c with peak := 0 } fun _ after => after.Owes verdict [] fuel :=
      Level.balances_item (Level.balances_withRoom _) hc
    split at h
    · exact ih (hitem.ok ‹_›) h
    · split at h
      · exact ih (hitem.ok ‹_›) h
      · cases h
    · cases h

/-- The brackets of what can be read are balanced. -/
theorem Fragment.ofTokens_balanced {tokens : List Token} {f : Fragment} (h : ofTokens tokens = .ok f) :
    Lexeme.balanced [] (tokens.map Token.lexeme) = true := by
  simp only [ofTokens] at h
  split at h
  · rename_i hempty
    have hstart : Cursor.Owes ⟨tokens, ⟨0, 0⟩, 0⟩ (Lexeme.balanced [] (tokens.map Token.lexeme)) [] tokens.length :=
      ⟨rfl, Nat.le_refl _⟩
    exact Reading.ofCursor_balanced hstart (List.isEmpty_iff.mp hempty)
  · cases h

end Tree

/-! ### Counting brackets -/

namespace Console

/-- If as many brackets are open as are awaited, balanced tokens leave none open. -/
theorem foldl_bracketChange {front : List Token} {last : Token} {awaited : List Mark} (hlast : last.lexeme = .endOfInput)
    (hfront : ∀ t ∈ front, t.lexeme.isEnd = false)
    (h : Lexeme.balanced awaited ((front ++ [last]).map Token.lexeme) = true) :
    (front ++ [last]).foldl (fun depth t => depth + bracketChange t.lexeme) (awaited.length : Int) = 0 := by
  induction front generalizing awaited with
  | nil =>
    obtain ⟨lexeme, span⟩ := last
    cases hlast
    rw [List.isEmpty_iff.mp h]
    rfl
  | cons t front ih =>
    obtain ⟨hinner, hrest⟩ := List.forall_mem_cons.mp hfront
    have plain (hplain : t.lexeme.isPlain = true) (hchange : bracketChange t.lexeme = 0) :
        (t :: front ++ [last]).foldl (fun depth t => depth + bracketChange t.lexeme) (awaited.length : Int) = 0 := by
      rw [List.cons_append, List.map_cons, Lexeme.balanced_plain hplain] at h
      rw [List.cons_append, List.foldl_cons, hchange, Int.add_zero]
      exact ih hrest h
    obtain ⟨lexeme, span⟩ := t
    cases lexeme with
    | endOfInput => cases hinner
    | mark m =>
      obtain ⟨close, hopen, hchange⟩ | ⟨hopen, hclose, hchange⟩ | ⟨hopen, hclose, hchange⟩ := m.bracket_cases
      · rw [List.cons_append, List.map_cons, Lexeme.balanced_open hopen] at h
        rw [List.cons_append, List.foldl_cons, hchange]
        exact ih hrest h
      · rw [List.cons_append, List.map_cons, Lexeme.balanced_closer hopen hclose] at h
        obtain ⟨hhead, h⟩ := Bool.and_eq_true_iff.mp h
        obtain ⟨outer, rfl⟩ := List.head?_eq_some_iff.mp (of_decide_eq_true hhead)
        rw [List.cons_append, List.foldl_cons, hchange, List.length_cons]
        have fewer := ih hrest h
        rwa [List.tail_cons, show (outer.length : Int) = ((outer.length + 1 : Nat) : Int) + -1 by omega] at fewer
      · exact plain (by rw [Lexeme.isPlain, hopen, hclose]; rfl) hchange
    | _ => exact plain rfl rfl

/-- A text that can be read is not held back: its brackets are balanced, so it is complete, and the line that completes it
    is submitted together with the lines before it. -/
theorem isComplete_of_parse {source : String} {f : Tree.Fragment} (h : Tree.Fragment.parse source.toList = .ok f) :
    (∃ tokens, Lexer.tokenize source.toList = .ok tokens ∧ Lexeme.balanced [] (tokens.map Token.lexeme) = true ∧
      openBrackets tokens = 0) ∧
    isComplete source = true ∧
    ∀ pending line, pending ++ line ++ "\n" = source →
      extend pending line = .submit source ∧ ∀ held, react pending line ≠ .wait held := by
  simp only [Tree.Fragment.parse] at h
  split at h
  · rename_i tokens htokens
    have hbalanced := Tree.Fragment.ofTokens_balanced h
    obtain ⟨front, last, rfl, hlast, hfront⟩ := Lexer.tokenize_isEnd htokens
    have hopen : openBrackets (front ++ [last]) = 0 := foldl_bracketChange hlast hfront hbalanced
    have hcomplete : isComplete source = true := by
      rw [isComplete, htokens]
      exact decide_eq_true (Int.le_of_eq hopen)
    refine ⟨⟨_, htokens, hbalanced, hopen⟩, hcomplete, fun pending line hsource => ?_⟩
    have hextend : extend pending line = .submit source := by
      simp only [extend, hsource, if_pos hcomplete]
    refine ⟨hextend, fun held hwait => ?_⟩
    unfold react at hwait
    rw [hextend] at hwait
    split at hwait
    · split at hwait
      · cases hwait
      · cases hwait
      · split at hwait
        all_goals cases hwait
    · cases hwait
  · cases h

/-- A block with a list, an index and a call is submitted with the line that closes it. -/
theorem isComplete_of_parse_block :
    ∃ f, Tree.Fragment.parse "\x7b let a = [1, 2,];\nf(a[0]) \x7d\n".toList = .ok f ∧
      isComplete "\x7b let a = [1, 2,];\nf(a[0]) \x7d\n" = true ∧
      extend "\x7b let a = [1, 2,];\n" "f(a[0]) \x7d" = .submit "\x7b let a = [1, 2,];\nf(a[0]) \x7d\n" := by
  have reads : (Tree.Fragment.parse "\x7b let a = [1, 2,];\nf(a[0]) \x7d\n".toList).toOption.isSome = true := by
    decide +kernel
  obtain ⟨f, hf⟩ := Option.isSome_iff_exists.mp reads
  have hf := except_toOption_eq_some.mp hf
  obtain ⟨-, hcomplete, hlines⟩ := isComplete_of_parse hf
  exact ⟨f, hf, hcomplete, (hlines _ _ rfl).1⟩

end Console
end ScriptEngine
