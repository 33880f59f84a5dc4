import ScriptEngine.Proofs.ReaderOutcomes
import ScriptEngine.Proofs.SourceTokens

/-! How much a source text can say. A tree has a volume that bounds the code of what it is bound to and the texts in it.
    Reading pays for the volume in tokens (`Level.Pays`), and the tokens are paid for by the bytes of the source text, so
    the volume of a fragment is at most nine times as large as its text (`Fragment.parse_volume`). -/

namespace ScriptEngine

/-! ### Tokens -/

/-- What a token pays for: a node of a tree, and its own text. -/
@[simp] def Lexeme.weight : Lexeme → Nat
  | .word s | .text s => 8 + s.utf8ByteSize
  | .integer _ | .float _ | .keyword _ | .mark _ => 8
  | .endOfInput => 0

/-- What the tokens pay for together. -/
def weigh : List Token → Nat
  | [] => 0
  | t :: ts => t.lexeme.weight + weigh ts

theorem weight_le_weigh {t : Token} {tokens : List Token} (h : t ∈ tokens) : t.lexeme.weight ≤ weigh tokens := by
  induction tokens with
  | nil => cases h
  | cons first rest ih =>
    rw [weigh]
    rcases List.mem_cons.mp h with rfl | h
    · exact Nat.le_add_right ..
    · exact Nat.le_add_left_of_le (ih h)

namespace Lexer

/-- What is no token pays for nothing. -/
def Piece.weight : Piece → Nat
  | .lexeme l => l.weight
  | _ => 0

theorem unescape_utf8Size_le (c : Char) : (unescape c).utf8Size ≤ c.utf8Size := by
  unfold unescape
  split
  · decide
  · decide
  · decide
  · exact Nat.le_refl _

/-- A text is not longer than it is written. -/
theorem textBody_content {cs : List Char} {b : TextBody} (h : textBody cs = some b) :
    byteLength b.content ≤ byteLength b.taken := by
  fun_induction textBody cs generalizing b with
  | case1 => cases h
  | case2 cs =>
    cases h
    exact Nat.zero_le _
  | case3 => cases h
  | case4 c cs ih =>
    obtain ⟨inner, found, rfl⟩ := Option.map_eq_some_iff.mp h
    have hinner := ih found
    have hc := unescape_utf8Size_le c
    simp only [byteLength]
    omega
  | case5 c cs _ _ _ ih =>
    obtain ⟨inner, found, rfl⟩ := Option.map_eq_some_iff.mp h
    exact Nat.add_le_add_left (ih found) _

theorem number_weight (cs : List Char) : (number cs).piece.weight ≤ 8 := by
  simp only [number, numberPiece]
  split
  all_goals split
  all_goals first
    | exact Nat.le_refl _
    | exact Nat.zero_le _

theorem word_weight (cs : List Char) : (word cs).piece.weight ≤ 8 + byteLength (word cs).taken := by
  unfold word
  simp only [Piece.weight, Lexeme.ofWord]
  split
  · exact Nat.le_add_right ..
  · exact Nat.le_of_eq (by rw [Lexeme.weight, byteLength_eq])

theorem text_weight (cs : List Char) : (text cs).piece.weight ≤ 8 + byteLength (text cs).taken := by
  unfold text
  split
  · rename_i b hb
    have hcontent := textBody_content hb
    simp only [Piece.weight, Lexeme.weight, ← byteLength_eq, byteLength]
    omega
  · exact Nat.zero_le _

theorem mark_weight (c : Char) (cs : List Char) : (mark c cs).piece.weight ≤ 8 := by
  rcases mark_piece c cs with ⟨m, h⟩ | ⟨f, h⟩
  · rw [h]
    exact Nat.le_refl _
  · rw [h]
    exact Nat.zero_le _

theorem scan_weight (c : Char) (cs : List Char) : (scan c cs).piece.weight ≤ 8 + byteLength (scan c cs).taken := by
  unfold scan
  split
  · exact Nat.zero_le _
  · unfold blockComment
    split
    all_goals exact Nat.zero_le _
  split
  · exact Nat.zero_le _
  split
  · exact word_weight _
  split
  · exact Nat.le_add_right_of_le (number_weight _)
  split
  · exact text_weight _
  · exact Nat.le_add_right_of_le (mark_weight _ _)

theorem Found.weigh_cons (p : Piece) (span : Span) (found : Found) :
    weigh (found.cons p span).tokens = p.weight + weigh found.tokens := by
  cases p with
  | skipped | fault => exact (Nat.zero_add _).symm
  | lexeme l => rfl

/-- Every piece takes a byte, so a text pays for its tokens. -/
theorem pieces_weigh (cs : List Char) (offset : Nat) :
    weigh ((pieces cs offset).foldr (fun p found => found.cons p.1 p.2) ⟨[], []⟩ : Found).tokens ≤
      9 * byteLength cs := by
  fun_induction pieces cs offset with
  | case1 offset => exact Nat.le_refl _
  | case2 offset c cs cut stop ih =>
    have hbytes : byteLength cut.taken + byteLength cut.rest = byteLength (c :: cs) := by
      rw [← byteLength_append, scan_joins]
    have hpos : 0 < byteLength cut.taken := byteLength_pos (scan_taken_ne_nil c cs)
    have hweight : cut.piece.weight ≤ 8 + byteLength cut.taken := scan_weight c cs
    simp only [List.foldr_cons, Found.weigh_cons]
    omega

theorem tokenize_weigh {cs : List Char} {tokens : List Token} (h : tokenize cs = .ok tokens) :
    weigh tokens ≤ 9 * byteLength cs := by
  simp only [tokenize] at h
  split at h
  · cases h
    exact pieces_weigh cs 0
  · cases h

end Lexer

/-! ### Volumes -/

/-- A literal is an instruction and a constant, and a text has its bytes as well. -/
@[simp] def Literal.volume : Literal → Nat
  | .text s => 2 + s.utf8ByteSize
  | .int _ | .float _ | .bool _ => 2

namespace Tree

mutual

/-- The volume of an expression: at least the number of instructions that it becomes, and the lengths of its texts. -/
def Expr.volume : Expr → Nat
  | .name _ | .path .. => 1
  | .literal value _ => value.volume
  | .binary _ left right _ => left.volume + right.volume + 7
  | .unary _ operand _ => operand.volume + 1
  | .call callee args _ => callee.volume + Expr.volumeAll args + 1
  | .index base position _ => base.volume + position.volume + 1
  | .list items _ => Expr.volumeAll items + 1
  | .branch b => b.volume
  | .block b => b.volume

def Expr.volumeAll : List Expr → Nat
  | [] => 0
  | e :: es => e.volume + Expr.volumeAll es

/-- Without an expression, there is the unit value. -/
def Expr.volumeIfAny : Option Expr → Nat
  | none => 1
  | some e => e.volume

def Branch.volume : Branch → Nat
  | .mk condition body otherwise _ => condition.volume + body.volume + otherwise.volume + 2

def Otherwise.volume : Otherwise → Nat
  | .nothing => 1
  | .block b => b.volume
  | .branch b => b.volume + 1

def Stmt.volume : Stmt → Nat
  | .bind _ _ value _ | .ret value _ => Expr.volumeIfAny value + 2
  | .assign _ value _ => value.volume + 2
  | .setIndex base position value _ => base.volume + position.volume + value.volume + 2
  | .func _ _ body _ => body.volume
  | .eval e => e.volume + 2
  | .loop condition body _ => condition.volume + body.volume + 4
  | .leave _ | .next _ => 2

def Stmt.volumeAll : List Stmt → Nat
  | [] => 0
  | s :: rest => s.volume + Stmt.volumeAll rest

def Block.volume : Block → Nat
  | .mk stmts tail _ => Stmt.volumeAll stmts + Expr.volumeIfAny tail + 1

end

attribute [simp] Expr.volume Expr.volumeAll Expr.volumeIfAny Branch.volume Otherwise.volume Stmt.volume Stmt.volumeAll
  Block.volume

def Level.Item.volume : Item → Nat
  | .stmt s => s.volume
  | .tail e => e.volume

theorem Level.volume_applyUnary (op : UnaryOp) (start : Nat) (e : Expr) :
    (applyUnary op start e).volume ≤ e.volume + 1 := by
  unfold applyUnary
  split
  · simp
  · simp

/-! ### What reading pays -/

/-- Between two places, the tokens and a credit pay for so much. -/
def Cursor.Affords (c : Cursor) (credit cost : Nat) (c' : Cursor) : Prop := cost + weigh c'.rest ≤ credit + weigh c.rest

namespace Cursor

variable {c c' c'' : Cursor} {j k m n : Nat}

theorem affords_refl (c : Cursor) (n : Nat) : c.Affords n n c := Nat.le_refl _

theorem affords_advance {x : Lexeme} (hx : c.lexeme = x) : c.Affords 0 x.weight c.advance := by
  subst hx
  unfold Affords lexeme advance
  split
  · rename_i hrest
    rw [hrest]
    exact Nat.le_refl _
  · rename_i hrest
    rw [hrest, weigh]
    exact Nat.le_of_eq (Nat.zero_add _).symm

/-- What more is paid for is taken on credit. -/
theorem Affords.mono (h : c.Affords k n c') (hle : m + k ≤ n + j) : c.Affords j m c' := by
  unfold Affords at *
  omega

theorem Affords.trans (h : c.Affords j m c') (h' : c'.Affords k n c'') : c.Affords (j + k) (m + n) c'' := by
  unfold Affords at *
  omega

/-- What was paid for first is the credit of what comes then. -/
theorem Affords.credit (h : c.Affords j k c') (h' : c'.Affords k n c'') : c.Affords j n c'' := Nat.le_trans h' h

/-- A token that pays for nothing. -/
theorem affords_skip (c : Cursor) (n : Nat) : c.Affords n n c.advance :=
  (affords_advance rfl).mono (by omega)

theorem Affords.skip (h : c.Affords k n c') : c.Affords k n c'.advance := h.credit (c'.affords_skip n)

theorem Affords.advance {x : Lexeme} (h : c.Affords k n c') (hx : c'.lexeme = x) :
    c.Affords k (n + x.weight) c'.advance := h.trans (affords_advance hx)

end Cursor

open ScriptEngine.Tree.Parser

/-- What the readers of a level read is paid for by the tokens they take, with something left for what is put around it. -/
structure Level.Pays (l : Level) : Prop where
  unary (braces : Bool) (c : Cursor) : Gets (l.unary braces) c fun e c' => c.Affords 0 (e.volume + 2) c'
  block (braces : Bool) (c : Cursor) : Gets (l.block braces) c fun b c' => c.Affords 0 (b.volume + 3) c'
  branch (braces : Bool) (c : Cursor) : Gets (l.branch braces) c fun b c' => c.Affords 0 b.volume c'

namespace Level

theorem weight_of_binaryOp {x : Lexeme} {op : BinaryOp} (h : binaryOp? x = some op) : x.weight = 8 := by
  unfold binaryOp? at h
  split at h
  all_goals first
    | rfl
    | cases h

theorem weight_of_unaryOp {x : Lexeme} {op : UnaryOp} (h : unaryOp? x = some op) : x.weight = 8 := by
  unfold unaryOp? at h
  split at h
  all_goals first
    | rfl
    | cases h

section
variable {l : Level} {braces : Bool} {c : Cursor}

/-- The operators and the operands behind `left` pay for what is put around it. -/
theorem pays_climb (hl : l.Pays) (fuel least : Nat) (left : Expr) :
    Gets (l.climb braces fuel least left) c fun e c' => c.Affords left.volume e.volume c' := by
  induction fuel generalizing least left c with
  | zero => exact c.affords_refl _
  | succ fuel ih =>
    refine comes_get ?_
    split
    · exact c.affords_refl _
    · rename_i op hop
      refine comes_ite (fun _ => c.affords_refl _) fun _ => ?_
      refine comes_next (comes_openChain ?_)
      refine comes_bind (hl.unary braces _) fun first c₁ hfirst => comes_bind (ih _ first) fun right c₂ hright => ?_
      refine comes_closeChain (comes_deepen (fun _ => ?_) trivial)
      have taken : c.Affords 0 8 c.advance := weight_of_binaryOp hop ▸ Cursor.affords_advance rfl
      have node : c.Affords left.volume (Expr.binary op left right (left.span.cover right.span)).volume c₂ :=
        (taken.trans (hfirst.trans hright)).mono (by rw [Expr.volume]; omega)
      exact (ih _ _).imp (fun e c' he => node.credit he) fun _ _ => id

theorem pays_expression (hl : l.Pays) : Gets (l.expression braces) c fun e c' => c.Affords 0 (e.volume + 2) c' := by
  refine comes_openChain (comes_bind (hl.unary braces _) fun first c₁ hfirst => comes_get ?_)
  refine comes_bind (pays_climb hl _ _ first) fun e c₂ he => comes_closeChain ?_
  exact (hfirst.trans he).mono (by omega)

theorem pays_items (hl : l.Pays) (close : Mark) (fuel : Nat) :
    Gets (l.items close fuel) c fun es c' => c.Affords 0 (Expr.volumeAll es) c' := by
  induction fuel generalizing c with
  | zero => exact c.affords_refl 0
  | succ fuel ih =>
    refine comes_get (comes_ite (fun _ => c.affords_refl 0) fun _ => ?_)
    refine comes_bind (pays_expression hl) fun e c₁ he => comes_takeMark (fun _ => ?_) ?_
    · exact comes_bind ih fun es c₂ hes => (he.skip.trans hes).mono (by rw [Expr.volumeAll]; omega)
    · exact he.mono (by rw [Expr.volumeAll, Expr.volumeAll]; omega)

theorem pays_closedItems (hl : l.Pays) (close : Mark) :
    Gets (l.closedItems close) c fun r c' => c.Affords 0 (Expr.volumeAll r.1 + 8) c' :=
  comes_get (comes_bind (pays_items hl close _) fun _ _ hes => comes_expect (fun hmark => hes.advance hmark) trivial)

theorem pays_nameOrPath : Gets nameOrPath c fun e c' => c.Affords 0 (e.volume + 2) c' := by
  refine comes_ident (fun name hname => ?_) trivial
  have named : c.Affords 0 3 c.advance := (Cursor.affords_advance hname).mono (by rw [Lexeme.weight]; omega)
  exact comes_takeMark (fun _ => comes_ident (fun _ _ => named.skip.skip) trivial) named

theorem pays_primary (hl : l.Pays) : Gets (l.primary braces) c fun e c' => c.Affords 0 (e.volume + 2) c' := by
  have literal {value : Literal} {x : Lexeme} (hx : c.lexeme = x) (hle : value.volume + 2 ≤ x.weight) :
      Gets (next >>= fun span => pure (Expr.literal value span)) c fun e c' => c.Affords 0 (e.volume + 2) c' :=
    comes_next ((Cursor.affords_advance hx).mono (by rw [Expr.volume]; omega))
  refine comes_takeKeyword (fun hif => ?_) ?_
  · refine comes_bind (hl.branch braces _) fun b c₁ hb => ?_
    exact ((Cursor.affords_advance hif).trans hb).mono (by rw [Expr.volume, Lexeme.weight]; omega)
  refine comes_get (comes_ite (fun _ => ?_) fun _ => comes_get ?_)
  · exact comes_bind (hl.block braces c) fun b c₁ hb => hb.mono (by rw [Expr.volume]; omega)
  split
  · exact pays_nameOrPath
  · exact literal ‹_› (by rw [Literal.volume, Lexeme.weight]; omega)
  · exact literal ‹_› (by rw [Literal.volume, Lexeme.weight]; omega)
  · exact literal ‹_› (by rw [Literal.volume, Lexeme.weight]; omega)
  · exact literal ‹_› (by rw [Literal.volume, Lexeme.weight]; omega)
  · exact literal ‹_› (by rw [Literal.volume, Lexeme.weight]; omega)
  · refine comes_next (comes_bind (pays_expression hl) fun e c₁ he => comes_expect (fun _ => ?_) trivial)
    exact ((c.affords_skip 0).credit he).skip
  · refine comes_next (comes_bind (pays_closedItems hl _) fun r c₁ hr => ?_)
    exact ((c.affords_skip 0).credit hr).mono (by rw [Expr.volume]; omega)
  · exact trivial

/-- The calls and indices behind `e` pay for what is put around it. -/
theorem pays_suffixes (hl : l.Pays) (fuel : Nat) (e : Expr) :
    Gets (l.suffixes braces fuel e) c fun e' c' => c.Affords e.volume e'.volume c' := by
  induction fuel generalizing e c with
  | zero => exact c.affords_refl _
  | succ fuel ih =>
    have opened := c.affords_skip e.volume
    refine comes_takeMark (fun _ => ?_) (comes_takeMark (fun _ => ?_) (c.affords_refl _))
    · refine comes_bind (pays_closedItems hl _) fun r c₁ hr => comes_deepen (fun _ => ?_) trivial
      have node : c.Affords e.volume (Expr.call e r.1 ⟨e.span.start, r.2⟩).volume c₁ :=
        (opened.trans hr).mono (by rw [Expr.volume]; omega)
      exact (ih _).imp (fun e' c' he' => node.credit he') fun _ _ => id
    · refine comes_bind (pays_expression hl) fun position c₁ hposition => comes_expect (fun _ => ?_) trivial
      refine comes_deepen (fun _ => ?_) trivial
      have node : c.Affords e.volume (Expr.index e position ⟨e.span.start, c₁.advance.previous.stop⟩).volume
          c₁.advance := (opened.trans hposition).skip.mono (by rw [Expr.volume]; omega)
      exact (ih _).imp (fun e' c' he' => node.credit he') fun _ _ => id

theorem pays_operand (hl : l.Pays) : Gets (l.operand braces) c fun e c' => c.Affords 0 (e.volume + 2) c' := by
  refine comes_openChain (comes_bind (pays_primary hl) fun first c₁ hfirst => comes_get ?_)
  refine comes_bind (pays_suffixes hl _ first) fun e c₂ he => comes_closeChain ?_
  exact (hfirst.trans he).mono (by omega)

theorem pays_unaryBody (hl : l.Pays) : Gets (l.unaryBody braces) c fun e c' => c.Affords 0 (e.volume + 2) c' := by
  refine comes_get ?_
  split
  · rename_i op hop
    refine comes_next (comes_bind (hl.unary braces _) fun e c₁ he => ?_)
    have taken : c.Affords 0 8 c.advance := weight_of_unaryOp hop ▸ Cursor.affords_advance rfl
    have hle := volume_applyUnary op c.advance.previous.start e
    exact (taken.trans he).mono (by omega)
  · exact pays_operand hl

theorem pays_otherwise (hl : l.Pays) : Gets (l.otherwise braces) c fun o c' => c.Affords 1 o.volume c' := by
  have first := c.affords_skip 1
  refine comes_takeKeyword (fun _ => comes_takeKeyword (fun _ => ?_) ?_)
    ((c.affords_refl 1).mono (by simp))
  · exact comes_bind (hl.branch braces _) fun b c₁ hb => (first.skip.trans hb).mono (by rw [Otherwise.volume]; omega)
  · exact comes_bind (hl.block braces _) fun b c₁ hb => (first.trans hb).mono (by rw [Otherwise.volume]; omega)

theorem pays_branchBody (hl : l.Pays) : Gets (l.branchBody braces) c fun b c' => c.Affords 0 b.volume c' := by
  refine comes_get (comes_bind (pays_expression hl) fun condition c₁ hcondition => ?_)
  refine comes_bind (hl.block braces _) fun body c₂ hbody => comes_bind (pays_otherwise hl) fun o c₃ ho => ?_
  exact ((hcondition.trans hbody).trans ho).mono (by rw [Branch.volume]; omega)

/-! ### Statements -/

theorem pays_bindStmt (hl : l.Pays) {start : Nat} :
    Gets (l.bindStmt braces start) c fun s c' => c.Affords 0 s.volume c' := by
  have named {mutable : Bool} {c' : Cursor} (h : c.Affords 0 0 c') : Gets (do
      let name ← ident .expectedBindingName
      if ← takeMark .eq then
        let value ← l.expression braces
        let _ ← expect .semicolon
        return Stmt.bind name mutable (some value) ⟨start, value.span.stop⟩
      else
        let _ ← expect .semicolon
        return Stmt.bind name mutable none ⟨start, name.span.stop⟩) c' fun s c' => c.Affords 0 s.volume c' := by
    refine comes_ident (fun name hname => comes_takeMark (fun _ => ?_) ?_) trivial
    · refine comes_bind (pays_expression hl) fun value c₁ hvalue => comes_expect (fun _ => ?_) trivial
      exact (h.skip.skip.trans hvalue).skip.mono (by rw [Stmt.volume, Expr.volumeIfAny]; omega)
    · refine comes_expect (fun _ => ?_) trivial
      exact (h.advance hname).skip.mono (by rw [Stmt.volume, Expr.volumeIfAny, Lexeme.weight]; omega)
  exact comes_takeKeyword (fun _ => named (c.affords_skip 0)) (named (c.affords_refl 0))

theorem pays_params (fuel : Nat) : Gets (params fuel) c fun _ c' => c.Affords 0 0 c' := by
  induction fuel generalizing c with
  | zero => exact c.affords_refl 0
  | succ fuel ih =>
    have named := c.affords_skip 0
    refine comes_ident (fun _ _ => comes_takeMark (fun _ => ?_) named) trivial
    refine comes_get (comes_ite (fun _ => named.skip) fun _ => ?_)
    exact comes_bind ih fun _ _ hrest => named.skip.credit hrest

theorem pays_funcStmt (hl : l.Pays) {start : Nat} :
    Gets (l.funcStmt braces start) c fun s c' => c.Affords 0 s.volume c' := by
  have body {name : Ident} {names : List Ident} {c' : Cursor} (h : c.Affords 0 0 c') : Gets (do
      let _ ← expect .closeParen
      let body ← l.block braces
      return Stmt.func name names body ⟨start, body.span.stop⟩) c' fun s c' => c.Affords 0 s.volume c' :=
    comes_expect (fun _ => comes_bind (hl.block braces _) fun _ _ hbody =>
      (h.skip.credit hbody).mono (by rw [Stmt.volume]; omega)) trivial
  refine comes_ident (fun _ _ => comes_expect (fun _ => comes_get ?_) trivial) trivial
  have before := (c.affords_skip 0).skip
  refine comes_ite (fun _ => body before) fun _ => ?_
  exact comes_get (comes_bind (pays_params _) fun _ _ hnames => body (before.credit hnames))

theorem pays_retStmt (hl : l.Pays) {start : Nat} :
    Gets (l.retStmt braces start) c fun s c' => c.Affords 0 s.volume c' := by
  refine comes_get (comes_ite (fun hmark => comes_next ?_) fun _ => ?_)
  · have taken := Cursor.affords_advance (Cursor.lexeme_of_atMark hmark)
    exact taken.mono (by rw [Stmt.volume, Expr.volumeIfAny, Lexeme.weight]; omega)
  · refine comes_bind (pays_expression hl) fun value c₁ hvalue => comes_expect (fun _ => ?_) trivial
    exact hvalue.skip.mono (by simp)

theorem pays_loopStmt (hl : l.Pays) {start : Nat} :
    Gets (l.loopStmt braces start) c fun s c' => c.Affords 0 s.volume c' := by
  refine comes_bind (pays_expression hl) fun condition c₁ hcondition => ?_
  refine comes_bind (hl.block braces _) fun body c₂ hbody => ?_
  exact (hcondition.trans hbody).mono (by rw [Stmt.volume]; omega)

/-- What stands left of the equals sign was paid for before. -/
theorem pays_assignStmt (hl : l.Pays) (target : Expr) :
    Gets (l.assignStmt braces target) c fun s c' => c.Affords target.volume s.volume c' := by
  unfold assignStmt
  split
  · refine comes_bind (pays_expression hl) fun value c₁ hvalue => comes_expect (fun _ => ?_) trivial
    exact hvalue.skip.mono (by rw [Stmt.volume]; omega)
  · refine comes_bind (pays_expression hl) fun value c₁ hvalue => comes_expect (fun hmark => ?_) trivial
    exact (hvalue.advance hmark).mono (by rw [Stmt.volume, Expr.volume]; omega)
  · exact trivial

theorem pays_exprItem (hl : l.Pays) : Gets (l.exprItem braces) c fun item c' => c.Affords 0 item.volume c' := by
  have evaluated {e : Expr} {c' : Cursor} (h : c.Affords 0 (e.volume + 2) c') :
      c.Affords 0 (Item.stmt (.eval e)).volume c' := h.mono (by simp [Item.volume])
  refine comes_bind (pays_expression hl) fun e c₁ he => comes_takeMark (fun _ => ?_) (comes_takeMark (fun _ => ?_) ?_)
  · exact comes_bind (pays_assignStmt hl e) fun s c₂ hs => (he.skip.trans hs).mono (by rw [Item.volume]; omega)
  · exact evaluated he.skip
  · exact comes_get (comes_ite (fun _ => evaluated he) fun _ => he.mono (by rw [Item.volume]; omega))

theorem pays_item (hl : l.Pays) : Gets (l.item braces) c fun item c' => c.Affords 0 item.volume c' := by
  have begun := c.affords_skip 0
  have stmt {p : Parser Stmt} (hp : Gets p c.advance fun s c' => c.advance.Affords 0 s.volume c') :
      Gets (p >>= fun s => pure (Item.stmt s)) c.advance fun item c' => c.Affords 0 item.volume c' :=
    comes_bind hp fun _ _ hs => begun.credit hs
  have control {s : Span → Stmt} (hs : ∀ span, (s span).volume = 2) :
      Gets (next >>= fun span => expect .semicolon >>= fun _ => pure (Item.stmt (s span))) c fun item c' =>
        c.Affords 0 item.volume c' :=
    comes_next (comes_expect (fun hmark =>
      (begun.advance hmark).mono (by rw [Item.volume, hs, Lexeme.weight]; omega)) trivial)
  refine comes_get ?_
  split
  · exact comes_next (stmt (pays_bindStmt hl))
  · exact comes_next (stmt (pays_funcStmt hl))
  · exact comes_next (stmt (pays_retStmt hl))
  · exact comes_next (stmt (pays_loopStmt hl))
  · exact control fun _ => by rw [Stmt.volume]
  · exact control fun _ => by rw [Stmt.volume]
  · exact pays_exprItem hl

/-- Without a tail there is a unit value, which no token pays for. -/
theorem pays_blockItems (hl : l.Pays) (fuel : Nat) : Gets (l.blockItems braces fuel) c
    fun r c' => c.Affords 1 (Stmt.volumeAll r.1 + Expr.volumeIfAny r.2) c' := by
  have nothing (c : Cursor) : c.Affords 1 (Stmt.volumeAll [] + Expr.volumeIfAny none) c :=
    (c.affords_refl 1).mono (by simp)
  induction fuel generalizing c with
  | zero => exact nothing c
  | succ fuel ih =>
    refine comes_get (comes_ite (fun _ => nothing c) fun _ => comes_takeMark (fun _ => ?_) ?_)
    · exact ih.imp (fun r c' hr => (c.affords_skip 1).credit hr) fun _ _ => id
    · refine comes_bind (pays_item hl) fun item c₁ hitem => ?_
      cases item with
      | tail e => exact hitem.mono (by rw [Stmt.volumeAll, Expr.volumeIfAny, Item.volume]; omega)
      | stmt s =>
        refine comes_bind ih fun r c₂ hr => (hitem.trans hr).mono ?_
        show Stmt.volumeAll (s :: r.1) + Expr.volumeIfAny r.2 + _ ≤ _
        rw [Stmt.volumeAll, Item.volume]
        omega

theorem pays_blockBody (hl : l.Pays) : Gets (l.blockBody braces) c fun b c' => c.Affords 0 (b.volume + 3) c' := by
  refine comes_expect (fun hopen => comes_get ?_) trivial
  refine comes_bind (pays_blockItems hl _) fun r c₁ hr => comes_expect (fun _ => ?_) trivial
  exact ((Cursor.affords_advance hopen).trans hr).skip.mono (by rw [Block.volume, Lexeme.weight]; omega)

/-! ### All levels -/

theorem pays_withRoom (room : Nat) : (withRoom room).Pays := by
  induction room with
  | zero => exact ⟨fun _ _ => trivial, fun _ _ => trivial, fun _ _ => trivial⟩
  | succ room ih =>
    exact ⟨fun _ _ => comes_enter (pays_unaryBody ih), fun _ _ => comes_enter (pays_blockBody ih),
      fun _ _ => comes_enter (pays_branchBody ih)⟩

end
end Level

/-! ### Fragments -/

/-- The volume of a fragment: that of the block that its top level is. -/
def Fragment.volume (f : Fragment) : Nat := (Block.mk f.stmts f.tail f.span).volume

/-- At the end nothing is left to read. -/
theorem Reading.ofCursor_atEnd (fuel : Nat) {c : Cursor} (h : c.atEnd = true) : (ofCursor fuel c).stmts = [] := by
  cases fuel with
  | zero => rfl
  | succ fuel => rw [ofCursor, if_pos h]

/-- What a reading without errors gives is paid for by its tokens. -/
theorem Reading.ofCursor_volume (fuel : Nat) (c : Cursor) : (ofCursor fuel c).errors = [] →
    Stmt.volumeAll (ofCursor fuel c).stmts + Expr.volumeIfAny (ofCursor fuel c).tail ≤ 1 + weigh c.rest := by
  have nothing (n : Nat) : Stmt.volumeAll [] + Expr.volumeIfAny none ≤ 1 + n := by
    rw [Stmt.volumeAll, Expr.volumeIfAny]
    omega
  induction fuel generalizing c with
  | zero => exact fun _ => nothing _
  | succ fuel ih =>
    unfold ofCursor
    split
    · exact fun _ => nothing _
    split
    · exact fun clean => Nat.le_trans (ih _ clean)
        (Nat.add_le_add_left (Nat.le_of_add_le_add_left (c.affords_skip 1)) 1)
    have hitem : Gets (Level.top.item true) { c with peak := 0 } fun item after => c.Affords 0 item.volume after :=
      Level.pays_item (Level.pays_withRoom maxNesting)
    split
    · rename_i s after hrun
      intro clean
      have rest := ih after clean
      have hs : s.volume + weigh after.rest ≤ 0 + weigh c.rest := hitem.ok hrun
      show Stmt.volumeAll (s :: (ofCursor fuel after).stmts) + Expr.volumeIfAny (ofCursor fuel after).tail ≤ _
      rw [Stmt.volumeAll]
      omega
    · rename_i e after hrun
      have he : e.volume + weigh after.rest ≤ 0 + weigh c.rest := hitem.ok hrun
      split
      · rename_i hend
        intro _
        show Stmt.volumeAll (ofCursor fuel after).stmts + Expr.volumeIfAny (some e) ≤ _
        rw [ofCursor_atEnd fuel hend, Stmt.volumeAll, Expr.volumeIfAny]
        omega
      · exact fun clean => absurd clean (List.cons_ne_nil _ _)
    · exact fun clean => absurd clean (List.cons_ne_nil _ _)

/-- The volume of a fragment is at most nine times as large as its text. -/
theorem Fragment.parse_volume {source : List Char} {f : Fragment} (h : parse source = .ok f) :
    f.volume ≤ 9 * byteLength source + 2 := by
  unfold parse at h
  split at h
  · rename_i tokens htokens
    simp only [ofTokens] at h
    split at h
    · rename_i hempty
      cases h
      have hvolume := Reading.ofCursor_volume tokens.length ⟨tokens, ⟨0, 0⟩, 0⟩ (List.isEmpty_iff.mp hempty)
      have hweigh := Lexer.tokenize_weigh htokens
      rw [volume, Block.volume]
      dsimp only at hvolume ⊢
      omega
    · cases h
  · cases h

end Tree
end ScriptEngine
