import ScriptEngine.Proofs.ReaderSteps
import ScriptEngine.Proofs.TreeInvariant

/-! Reading back what was written. Each reader of a level reads what was written of its kind, if the readers of the level
    inside of it do (`Level.ReadsBack`); so every tree that can be read is read again from its written form
    (`Fragment.ofTokens_written`). -/

namespace ScriptEngine.Tree

/-! ### Levels -/

open ScriptEngine.Tree.Parser

/-- The readers of a level read what was written, if nothing follows that belongs to it. -/
structure Level.ReadsBack (l : Level) : Prop where
  unary {e : Expr} {rest : List Lexeme} {c : Cursor} : e.Signed →
    c.lexemes = inPlace unaryPrecedence e e.written ++ rest → follow rest < postfixPrecedence →
    Yields (l.unary true) c (Gives Expr.bare e.bare rest)
  /-- Any integer: the magnitude of the least one is that integer again. -/
  integer {value : Int64} {rest : List Lexeme} {c : Cursor} : c.lexemes = .integer value :: rest →
    follow rest < postfixPrecedence → Yields (l.unary true) c (Gives Expr.bare (.literal (.int value) ⟨0, 0⟩) rest)
  parens {braces : Bool} {e : Expr} {rest : List Lexeme} {c : Cursor} : e.Signed →
    c.lexemes = inParens e.written ++ rest → follow rest < postfixPrecedence →
    Yields (l.unary braces) c (Gives Expr.bare e.bare rest)
  block {b : Block} {rest : List Lexeme} {c : Cursor} : b.Signed → c.lexemes = b.written ++ rest →
    Yields (l.block true) c (Gives Block.bare b.bare rest)
  branch {b : Branch} {rest : List Lexeme} {c : Cursor} : b.Signed → .keyword .cond :: c.lexemes = b.written ++ rest →
    follow rest ≤ postfixPrecedence → Yields (l.branch true) c (Gives Branch.bare b.bare rest)

namespace Level

section
variable {l : Level} {c : Cursor} {rest : List Lexeme} {allowed : SyntaxError → Prop}

/-! ### Operators -/

theorem yields_climb_stop {braces : Bool} {fuel least : Nat} {e : Expr} {Q : Expr → Cursor → Prop}
    (h : c.lexemes = rest) (hfollow : ∀ op, binaryOp? (rest.headD .endOfInput) = some op → op.precedence < least)
    (hQ : Q e c) : YieldsOr allowed (l.climb braces fuel least e) c Q := by
  cases fuel with
  | zero => exact hQ
  | succ fuel =>
    refine yields_get ?_
    rw [Cursor.lexeme_eq h]
    cases hop : binaryOp? (rest.headD .endOfInput) with
    | none => exact hQ
    | some op =>
      show YieldsOr allowed (if op.precedence < least then pure e else _) c Q
      rw [if_pos (hfollow op hop)]
      exact hQ

/-- Only an operator that stands in no parentheses is not written for an operand of a unary operator. -/
theorem inPlace_operand {least : Nat} {e : Expr} (hleast : least ≤ unaryPrecedence)
    (h : (∃ op left right span, e = .binary op left right span) → e.precedence < least) (ls : List Lexeme) :
    inPlace least e ls = inPlace unaryPrecedence e ls := by
  unfold inPlace
  by_cases hlt : e.precedence < least
  · rw [if_pos hlt, if_pos (Nat.lt_of_lt_of_le hlt hleast)]
  · have hge : unaryPrecedence ≤ e.precedence := by
      cases e with
      | binary op left right span => exact absurd (h ⟨op, left, right, span, rfl⟩) hlt
      | literal value span =>
        cases value with
        | int value =>
          rw [Expr.precedence]
          split
          all_goals decide
        | _ => exact (by decide : unaryPrecedence ≤ postfixPrecedence)
      | unary => exact Nat.le_refl _
      | _ => exact (by decide : unaryPrecedence ≤ postfixPrecedence)
    rw [if_neg hlt, if_neg (Nat.not_lt_of_le hge)]

/-- With fuel enough for what is left, it goes well to put operators around an operand. -/
def Climbs (l : Level) (least : Nat) (Q : Expr → Cursor → Prop) (e : Expr) (c : Cursor) : Prop :=
  ∀ fuel, c.lexemes.length ≤ fuel → Yields (l.climb true fuel least e) c Q

/-- Read the first operand of an expression: if it goes well behind the whole expression, then it goes well to climb
    from that operand. By recursion along the operands. -/
theorem yields_leading (hl : l.ReadsBack) : (e : Expr) → ∀ (most least : Nat) {c : Cursor} {rest : List Lexeme}
    {Q : Expr → Cursor → Prop}, most ≤ unaryPrecedence → least ≤ most → e.Signed →
    c.lexemes = inPlace most e e.written ++ rest → follow rest ≤ most →
    (∀ e' c', Gives Expr.bare e.bare rest e' c' → l.Climbs least Q e' c') →
    Yields (l.unary true) c fun e' c' => c'.lexemes.length ≤ c.lexemes.length ∧ l.Climbs least Q e' c' := by
  intro e most least c rest Q hmost hleast he h hfollow goes
  by_cases hop : (∃ op left right span, e = .binary op left right span) → e.precedence < most
  · rw [inPlace_operand hmost hop] at h
    have first := hl.unary he h (Nat.lt_of_le_of_lt (Nat.le_trans hfollow hmost) (by decide))
    refine yields_mono first fun e' c' he' => ⟨?_, goes e' c' he'⟩
    rw [he'.2, h, List.length_append]
    exact Nat.le_add_left _ _
  · obtain ⟨⟨op, left, right, span, rfl⟩, hge⟩ := Classical.not_imp.mp hop
    rw [inPlace, if_neg hge, Expr.written, List.append_assoc, List.cons_append] at h
    have hmost : most ≤ op.precedence := Nat.le_of_not_lt hge
    have hprecedence := op.precedence_le
    refine yields_leading hl left op.precedence least (Nat.le_trans hprecedence (by decide)) (Nat.le_trans hleast hmost)
      he.1 h (Nat.le_of_eq (power_mark op)) fun left' c hleft fuel hfuel => ?_
    obtain ⟨hleft, h⟩ := hleft
    cases fuel with
    | zero =>
      rw [h] at hfuel
      exact absurd hfuel (Nat.not_succ_le_zero _)
    | succ fuel =>
      have hfuel : (inPlace (op.precedence + 1) right right.written ++ rest).length ≤ fuel := by
        rw [h] at hfuel
        exact Nat.le_of_succ_le_succ hfuel
      refine yields_get ?_
      rw [Cursor.lexeme_of_lexemes h, op.binaryOp?_mark]
      refine yields_ite_neg (Nat.not_lt_of_le (Nat.le_trans hleast hmost)) ?_
      refine yields_next h fun _ c' h => yields_openChain h fun outer c' h => ?_
      -- The operator that follows binds no more tightly, so the right operand ends before it.
      have ends (op' : BinaryOp) (hop' : binaryOp? (rest.headD .endOfInput) = some op') : op'.precedence < op.precedence + 1 := by
        have := power_of_binaryOp? hop'
        unfold follow at hfollow
        omega
      refine yields_bind (yields_leading hl right (op.precedence + 1) (op.precedence + 1) (Q := Gives Expr.bare right.bare rest)
        (Nat.le_trans (Nat.succ_le_succ hprecedence) (by decide)) (Nat.le_refl _) he.2 h
        (Nat.le_succ_of_le (Nat.le_trans hfollow hmost))
        fun right' c' hright fuel _ => yields_climb_stop hright.2 ends hright) fun first c'' hfirst => ?_
      refine yields_bind (hfirst.2 fuel (Nat.le_trans hfirst.1 (h ▸ hfuel))) fun right' c' hright => ?_
      obtain ⟨hright, h⟩ := hright
      refine yields_closeChain h fun c' h => yields_deepen h fun c' h => ?_
      refine goes _ c' ⟨?_, h⟩ fuel ?_
      · rw [Expr.bare, Expr.bare, hleft, hright]
      · rw [h]
        rw [List.length_append] at hfuel
        exact Nat.le_trans (Nat.le_add_left _ _) hfuel

theorem inPlace_zero (e : Expr) (ls : List Lexeme) : inPlace 0 e ls = ls := if_neg (Nat.not_lt_zero _)

theorem yields_expression (hl : l.ReadsBack) {e : Expr} (he : e.Signed) (h : c.lexemes = e.written ++ rest)
    (hfollow : follow rest = 0) : Yields (l.expression true) c (Gives Expr.bare e.bare rest) := by
  rw [← inPlace_zero e e.written] at h
  refine yields_openChain h fun outer c h => ?_
  refine yields_bind (yields_leading hl e 0 0 (Q := Gives Expr.bare e.bare rest) (Nat.zero_le _) (Nat.le_refl 0) he h
    (Nat.le_of_eq hfollow) fun e' c' he' fuel _ => yields_climb_stop he'.2 (fun op hop => ?_) he') fun first c' hfirst => ?_
  · have := op.precedence_pos
    have := power_of_binaryOp? hop
    unfold follow at hfollow
    omega
  · refine yields_get ?_
    refine yields_bind (hfirst.2 _ (Nat.le_of_eq c'.lexemes_length)) fun e' c' he' => ?_
    exact yields_closeChain he'.2 fun c' h => ⟨he'.1, h⟩

/-- An expression of a single operand. -/
theorem yields_expression_operand {braces : Bool} {e : Expr} {ls : List Lexeme} (h : c.lexemes = ls)
    (hunary : ∀ c', c'.lexemes = ls → YieldsOr allowed (l.unary braces) c' (Gives Expr.bare e rest)) (hfollow : follow rest = 0) :
    YieldsOr allowed (l.expression braces) c (Gives Expr.bare e rest) := by
  refine yields_openChain h fun outer c h => ?_
  refine yields_bind (hunary c h) fun first c hfirst => yields_get ?_
  refine yields_bind (R := Gives Expr.bare e rest) (yields_climb_stop hfirst.2 (fun op hop => ?_) hfirst) fun e' c he' => ?_
  · have := op.precedence_pos
    have := power_of_binaryOp? hop
    unfold follow at hfollow
    omega
  · exact yields_closeChain he'.2 fun c' h => ⟨he'.1, h⟩

/-- A condition is read up to the brace that opens the body. -/
theorem yields_condition (hl : l.ReadsBack) {e : Expr} (he : e.Signed) (h : c.lexemes = inParens e.written ++ rest)
    (hfollow : follow rest = 0) : Yields l.condition c (Gives Expr.bare e.bare rest) :=
  yields_expression_operand h (fun _ h => hl.parens he h (by rw [hfollow]; decide)) hfollow

/-- The level reads what was written of an expression, if nothing follows that belongs to it. -/
def ReadsExpr (l : Level) (allowed : SyntaxError → Prop) (e : Expr) : Prop :=
  ∀ {c : Cursor} {rest : List Lexeme}, c.lexemes = e.written ++ rest → follow rest = 0 →
    YieldsOr allowed (l.expression true) c (Gives Expr.bare e.bare rest)

theorem ReadsBack.each (hl : l.ReadsBack) {es : List Expr} (hes : Expr.SignedAll es) :
    ∀ e ∈ es, l.ReadsExpr (fun e => e.cause = .tooDeep) e := by
  induction es with
  | nil => exact List.forall_mem_nil _
  | cons e es ih => exact List.forall_mem_cons.mpr ⟨yields_expression hl hes.1, ih hes.2⟩

/-! ### Operands -/

/-- Neither mark begins an expression or belongs to one. -/
def Closes (close : Mark) : Prop := close = .closeParen ∨ close = .closeBracket

theorem Closes.follow {close : Mark} (h : Closes close) (rest : List Lexeme) : follow (.mark close :: rest) = 0 := by
  rcases h with rfl | rfl
  all_goals rfl

theorem Closes.opensExpr {close : Mark} (h : Closes close) : opensExpr (.mark close) = false := by
  rcases h with rfl | rfl
  all_goals rfl

theorem not_comma_of_closes {close : Mark} (h : Closes close) {c : Cursor} (hc : c.lexemes = .mark close :: rest) :
    c.atMark .comma = false := by
  rw [Cursor.atMark_of_lexemes hc]
  rcases h with rfl | rfl
  all_goals rfl

theorem yields_items {close : Mark} (hclose : Closes close) (fuel : Nat) {es : List Expr}
    (hes : ∀ e ∈ es, l.ReadsExpr allowed e) (h : c.lexemes = withCommas (Expr.writtenEach es) ++ .mark close :: rest)
    (hfuel : c.lexemes.length ≤ fuel) :
    YieldsOr allowed (l.items close fuel) c (Gives Expr.bareAll (Expr.bareAll es) (.mark close :: rest)) := by
  induction fuel generalizing c es with
  | zero =>
    rw [h, List.length_append] at hfuel
    exact absurd hfuel (Nat.not_succ_le_zero _)
  | succ fuel ih =>
    refine yields_get ?_
    cases es with
    | nil =>
      have h : c.lexemes = .mark close :: rest := h
      rw [(Cursor.atMark_of_lexemes h close).trans (decide_eq_true rfl)]
      exact ⟨rfl, h⟩
    | cons e es =>
      rw [Expr.writtenEach, withCommas, List.append_assoc] at h
      rw [(e.written_begins.append _).atMark h hclose.opensExpr]
      cases es with
      | nil =>
        refine yields_bind (hes e (.head _) h (hclose.follow rest)) fun e' c he => ?_
        refine yields_skipMark (not_comma_of_closes hclose he.2) ?_
        exact ⟨congrArg (fun e => [e]) he.1, he.2⟩
      | cons next es =>
        refine yields_bind (hes e (.head _) h rfl) fun e' c' he => ?_
        have hlength : c'.lexemes.length ≤ fuel + 1 := by
          rw [he.2]
          rw [h, List.length_append] at hfuel
          exact Nat.le_trans (Nat.le_add_left _ _) hfuel
        have hcomma : c'.lexemes = .mark .comma :: (withCommas (Expr.writtenEach (next :: es)) ++ .mark close :: rest) := he.2
        refine yields_takeMark hcomma fun c h => ?_
        have hfuel : c.lexemes.length ≤ fuel := by
          rw [hcomma] at hlength
          rw [h]
          exact Nat.le_of_succ_le_succ hlength
        refine yields_bind (ih (fun e he => hes e (.tail _ he)) h hfuel) fun es' c hes' => ⟨?_, hes'.2⟩
        rw [Expr.bareAll, Expr.bareAll, he.1, hes'.1]

theorem yields_closedItems {close : Mark} (hclose : Closes close) {es : List Expr}
    (hes : ∀ e ∈ es, l.ReadsExpr allowed e) (h : c.lexemes = withCommas (Expr.writtenEach es) ++ .mark close :: rest) :
    YieldsOr allowed (l.closedItems close) c fun r c' => Expr.bareAll r.1 = Expr.bareAll es ∧ c'.lexemes = rest := by
  refine yields_get ?_
  refine yields_bind (yields_items hclose _ hes h (Nat.le_of_eq c.lexemes_length)) fun es' c hes' => ?_
  exact yields_expect hes'.2 fun span c h => ⟨hes'.1, h⟩

/-- With fuel enough for what is left, it goes well to put calls and indices around an expression. -/
def Extends (l : Level) (braces : Bool) (Q : Expr → Cursor → Prop) (e : Expr) (c : Cursor) : Prop :=
  ∀ fuel, c.lexemes.length ≤ fuel → Yields (l.suffixes braces fuel e) c Q

theorem yields_suffixes_stop {braces : Bool} {fuel : Nat} {e : Expr} {Q : Expr → Cursor → Prop}
    (h : c.lexemes = rest) (hfollow : follow rest < postfixPrecedence) (hQ : Q e c) :
    YieldsOr allowed (l.suffixes braces fuel e) c Q := by
  cases fuel with
  | zero => exact hQ
  | succ fuel =>
    exact yields_skipMark (Cursor.atMark_of_follow h hfollow) (yields_skipMark (Cursor.atMark_of_follow h hfollow) hQ)

/-- An operand that is neither a conditional nor a block. -/
theorem yields_neither {α : Type} {braces : Bool} {branch block : Parser α} {f : Cursor → Parser α}
    {Q : α → Cursor → Prop} {x : Lexeme} {ls : List Lexeme} (h : c.lexemes = x :: ls) (hcond : x.isKeyword .cond = false)
    (hbrace : x.isMark .openBrace = false) (hf : c.lexeme = x → YieldsOr allowed (f c) c Q) :
    YieldsOr allowed (do
      if ← takeKeyword .cond then branch
      else if braces && (← get).atMark .openBrace then block
      else f (← get)) c Q := by
  have hlexeme := Cursor.lexeme_of_lexemes h
  refine yields_skipKeyword ((Cursor.atKeyword_of_lexemes h _).trans hcond) (yields_get ?_)
  refine yields_ite_neg ?_ (yields_get (hf hlexeme))
  rw [Cursor.atMark_of_lexemes h, hbrace, Bool.and_false]
  exact Bool.false_ne_true

/-- An expression in parentheses is read whatever follows it. -/
theorem yields_primary_parens (hl : l.ReadsBack) {braces : Bool} {e : Expr} (he : e.Signed)
    (h : c.lexemes = inParens e.written ++ rest) : Yields (l.primary braces) c (Gives Expr.bare e.bare rest) := by
  have h : c.lexemes = .mark .openParen :: (e.written ++ .mark .closeParen :: rest) := by
    rw [h, inParens, List.cons_append, List.append_assoc, List.singleton_append]
  refine yields_neither h rfl rfl fun hlexeme => ?_
  rw [hlexeme]
  refine yields_next h fun _ c h => ?_
  refine yields_bind (yields_expression hl he h rfl) fun e' c he => ?_
  exact yields_expect he.2 fun _ c h => ⟨he.1, h⟩

theorem yields_primary_name {braces : Bool} {i : Ident} (h : c.lexemes = .word i.name :: rest)
    (hfollow : follow rest ≤ postfixPrecedence) : Yields (l.primary braces) c (Gives Expr.bare (.name i.bare) rest) := by
  refine yields_neither h rfl rfl fun hlexeme => ?_
  rw [hlexeme]
  refine yields_ident h fun i' c hi h => ?_
  refine yields_skipMark (Cursor.atMark_of_follow h (Nat.lt_succ_of_le hfollow)) ⟨?_, h⟩
  rw [Expr.bare, hi]
  rfl

theorem yields_primary_path {braces : Bool} {library member : Ident}
    (h : c.lexemes = .word library.name :: .mark .colonColon :: .word member.name :: rest) :
    Yields (l.primary braces) c (Gives Expr.bare (.path library.bare member.bare ⟨0, 0⟩) rest) := by
  refine yields_neither h rfl rfl fun hlexeme => ?_
  rw [hlexeme]
  refine yields_ident h fun i c hi h => yields_takeMark h fun c h => yields_ident h fun j c hj h => ⟨?_, h⟩
  rw [Expr.bare, hi, hj]
  rfl

/-- The lexeme of a literal, without the sign of a negative integer. -/
def literalLexeme : Literal → Lexeme
  | .int value => .integer value
  | .float value => .float value
  | .bool value => .keyword (if value then .yes else .no)
  | .text value => .text value

theorem yields_primary_literal {braces : Bool} {value : Literal} (h : c.lexemes = literalLexeme value :: rest) :
    YieldsOr allowed (l.primary braces) c (Gives Expr.bare (.literal value ⟨0, 0⟩) rest) := by
  cases value with
  | bool value =>
    cases value
    all_goals
      refine yields_neither h rfl rfl fun hlexeme => ?_
      rw [hlexeme]
      exact yields_next h fun _ c h => ⟨rfl, h⟩
  | _ =>
    refine yields_neither h rfl rfl fun hlexeme => ?_
    rw [hlexeme]
    exact yields_next h fun _ c h => ⟨rfl, h⟩

theorem yields_primary_list {es : List Expr} (hes : ∀ e ∈ es, l.ReadsExpr allowed e)
    (h : c.lexemes = .mark .openBracket :: (withCommas (Expr.writtenEach es) ++ .mark .closeBracket :: rest)) :
    YieldsOr allowed (l.primary true) c (Gives Expr.bare (.list (Expr.bareAll es) ⟨0, 0⟩) rest) := by
  refine yields_neither h rfl rfl fun hlexeme => ?_
  rw [hlexeme]
  refine yields_next h fun _ c h => yields_bind (yields_closedItems (.inr rfl) hes h) fun r c hr => ⟨?_, hr.2⟩
  rw [Expr.bare, hr.1]

theorem yields_primary_branch (hl : l.ReadsBack) {b : Branch} (hb : b.Signed) (h : c.lexemes = b.written ++ rest)
    (hfollow : follow rest ≤ postfixPrecedence) : Yields (l.primary true) c (Gives Expr.bare (.branch b.bare) rest) := by
  obtain ⟨condition, body, otherwise, span⟩ := b
  refine yields_takeKeyword h fun c' hc' => ?_
  have hbranch : .keyword .cond :: c'.lexemes = (Branch.mk condition body otherwise span).written ++ rest := by
    rw [hc']
    rfl
  exact yields_bind (hl.branch hb hbranch hfollow) fun b' c hb' => ⟨congrArg Expr.branch hb'.1, hb'.2⟩

theorem yields_primary_block (hl : l.ReadsBack) {b : Block} (hb : b.Signed) (h : c.lexemes = b.written ++ rest) :
    Yields (l.primary true) c (Gives Expr.bare (.block b.bare) rest) := by
  obtain ⟨stmts, tail, span⟩ := b
  refine yields_skipKeyword (Cursor.atKeyword_of_lexemes h _) (yields_get ?_)
  rw [Cursor.atMark_of_lexemes h]
  exact yields_bind (hl.block hb h) fun b' c hb' => ⟨by rw [Expr.bare, hb'.1], hb'.2⟩

/-- A literal that needs no sign is one lexeme. -/
theorem written_of_unsigned {value : Literal} {span : Span}
    (h : ¬(Expr.literal value span).precedence < postfixPrecedence) : value.written = [literalLexeme value] := by
  cases value with
  | int value =>
    rw [Expr.precedence] at h
    rw [Literal.written]
    split
    · rename_i hneg
      rw [if_pos hneg] at h
      exact absurd (by decide) h
    · rfl
  | _ => rfl

/-- Read the innermost part of an expression with calls and indices: if it goes well behind the whole expression, then
    it goes well to put calls and indices around that part. By recursion along the callees and bases. -/
theorem yields_innermost (hl : l.ReadsBack) : (e : Expr) → ∀ {c : Cursor} {rest : List Lexeme} {Q : Expr → Cursor → Prop},
    e.Signed → c.lexemes = inPlace postfixPrecedence e e.written ++ rest → follow rest ≤ postfixPrecedence →
    (∀ e' c', Gives Expr.bare e.bare rest e' c' → l.Extends true Q e' c') →
    Yields (l.primary true) c (l.Extends true Q) := by
  intro e c rest Q he h hfollow goes
  by_cases hlt : e.precedence < postfixPrecedence
  · rw [inPlace, if_pos hlt] at h
    exact yields_mono (yields_primary_parens hl he h) goes
  rw [inPlace, if_neg hlt] at h
  cases e with
  | name i => exact yields_mono (yields_primary_name h hfollow) goes
  | path library member span => exact yields_mono (yields_primary_path h) goes
  | literal value span =>
    rw [Expr.written, written_of_unsigned hlt] at h
    exact yields_mono (yields_primary_literal h) goes
  | binary op left right span => exact absurd (Nat.lt_of_le_of_lt op.precedence_le (by decide)) hlt
  | unary op operand span => exact absurd (by decide : unaryPrecedence < postfixPrecedence) hlt
  | list items span =>
    rw [Expr.written, List.cons_append, List.append_assoc] at h
    exact yields_mono (yields_primary_list (hl.each he) h) goes
  | branch b => exact yields_mono (yields_primary_branch hl he h hfollow) goes
  | block b => exact yields_mono (yields_primary_block hl he h) goes
  | call callee args span =>
    rw [Expr.written, List.append_assoc, List.cons_append, List.append_assoc] at h
    refine yields_innermost hl callee he.1 h (Nat.le_refl _) fun callee' c hcallee fuel hfuel => ?_
    obtain ⟨hcallee, h⟩ := hcallee
    cases fuel with
    | zero =>
      rw [h] at hfuel
      exact absurd hfuel (Nat.not_succ_le_zero _)
    | succ fuel =>
      have hfuel : rest.length ≤ fuel := by
        simp only [h, List.length_cons, List.length_append] at hfuel
        omega
      refine yields_takeMark h fun c h => yields_bind (yields_closedItems (.inl rfl) (hl.each he.2) h) fun r c hr => ?_
      refine yields_deepen hr.2 fun c h => goes _ c ⟨?_, h⟩ fuel (h ▸ hfuel)
      rw [Expr.bare, Expr.bare, hcallee, hr.1]
  | index base position span =>
    rw [Expr.written, List.append_assoc, List.cons_append, List.append_assoc] at h
    refine yields_innermost hl base he.1 h (Nat.le_refl _) fun base' c hbase fuel hfuel => ?_
    obtain ⟨hbase, h⟩ := hbase
    cases fuel with
    | zero =>
      rw [h] at hfuel
      exact absurd hfuel (Nat.not_succ_le_zero _)
    | succ fuel =>
      have hfuel : rest.length ≤ fuel := by
        simp only [h, List.length_cons, List.length_append] at hfuel
        omega
      refine yields_skipMark (Cursor.atMark_of_lexemes h _) (yields_takeMark h fun c h => ?_)
      refine yields_bind (yields_expression hl he.2 h rfl) fun position' c hposition => ?_
      refine yields_expect hposition.2 fun span c h => yields_deepen h fun c h => goes _ c ⟨?_, h⟩ fuel (h ▸ hfuel)
      rw [Expr.bare, Expr.bare, hbase, hposition.1]

/-- An operand without calls and indices around it. -/
theorem yields_operand_alone {braces : Bool} {e : Expr} {ls : List Lexeme} (h : c.lexemes = ls)
    (hprimary : ∀ c', c'.lexemes = ls → YieldsOr allowed (l.primary braces) c' (Gives Expr.bare e rest))
    (hfollow : follow rest < postfixPrecedence) : YieldsOr allowed (l.operand braces) c (Gives Expr.bare e rest) := by
  refine yields_openChain h fun outer c' hc => ?_
  refine yields_bind (hprimary c' hc) fun first c' hfirst => yields_get ?_
  refine yields_bind (R := Gives Expr.bare e rest) (yields_suffixes_stop hfirst.2 hfollow hfirst) fun e' c' he => ?_
  exact yields_closeChain he.2 fun c h => ⟨he.1, h⟩

/-- A whole operand in parentheses. -/
theorem yields_operand_parens (hl : l.ReadsBack) {braces : Bool} {e : Expr} (he : e.Signed)
    (h : c.lexemes = inParens e.written ++ rest) (hfollow : follow rest < postfixPrecedence) :
    Yields (l.operand braces) c (Gives Expr.bare e.bare rest) :=
  yields_operand_alone h (fun _ h => yields_primary_parens hl he h) hfollow

theorem yields_operand (hl : l.ReadsBack) {e : Expr} (he : e.Signed)
    (h : c.lexemes = inPlace postfixPrecedence e e.written ++ rest) (hfollow : follow rest < postfixPrecedence) :
    Yields (l.operand true) c (Gives Expr.bare e.bare rest) := by
  refine yields_openChain h fun outer c' hc => ?_
  refine yields_bind (yields_innermost hl e (Q := Gives Expr.bare e.bare rest) he hc (Nat.le_of_lt hfollow)
    fun e' c' he' fuel _ => yields_suffixes_stop he'.2 hfollow he') fun first c' hfirst => yields_get ?_
  refine yields_bind (hfirst _ (Nat.le_of_eq c'.lexemes_length)) fun e' c' he => ?_
  exact yields_closeChain he.2 fun c h => ⟨he.1, h⟩

theorem yields_operand_literal (value : Literal) (h : c.lexemes = literalLexeme value :: rest)
    (hfollow : follow rest < postfixPrecedence) :
    YieldsOr allowed (l.operand true) c (Gives Expr.bare (.literal value ⟨0, 0⟩) rest) :=
  yields_operand_alone h (fun _ h => yields_primary_literal h) hfollow

/-! ### Unary operators -/

/-- No unary operator stands here. -/
theorem yields_unaryBody_operand {braces : Bool} {Q : Expr → Cursor → Prop} {x : Lexeme} {ls : List Lexeme}
    (h : c.lexemes = x :: ls) (hx : unaryOp? x = none) (hp : YieldsOr allowed (l.operand braces) c Q) :
    YieldsOr allowed (l.unaryBody braces) c Q := by
  refine yields_get ?_
  rw [Cursor.lexeme_of_lexemes h, hx]
  exact hp

theorem bare_applyUnary {op : UnaryOp} {start : Nat} {e : Expr} (h : op = .neg → ¬e.IsInteger) :
    (applyUnary op start e).bare = .unary op e.bare ⟨0, 0⟩ := by
  cases op with
  | not => rfl
  | neg =>
    cases e with
    | literal value span =>
      cases value with
      | int value => exact absurd trivial (h rfl)
      | _ => rfl
    | _ => rfl

theorem isInteger_bare (e : Expr) : e.bare.IsInteger ↔ e.IsInteger := by
  cases e with
  | literal value span =>
    cases value with
    | _ => exact Iff.rfl
  | _ => exact Iff.rfl

/-- A minus becomes part of a magnitude. -/
theorem bare_applyUnary_magnitude {value : Int64} {start : Nat} {e : Expr} (h : e.bare = .literal (.int (-value)) ⟨0, 0⟩) :
    (applyUnary .neg start e).bare = .literal (.int value) ⟨0, 0⟩ := by
  cases e with
  | literal value' span =>
    obtain rfl : value' = .int (-value) := (Expr.literal.inj h).1
    show Expr.literal (.int (- -value)) ⟨0, 0⟩ = _
    rw [Int64.neg_neg]
  | _ => cases h

/-- What a unary operator is put in front of. -/
theorem yields_unaryBody_unary (hl : l.ReadsBack) {op : UnaryOp} {e : Expr} (hop : op = .neg → ¬e.IsInteger)
    (he : e.Signed) (h : c.lexemes = .mark op.mark :: (inPlace unaryPrecedence e e.written ++ rest))
    (hfollow : follow rest < postfixPrecedence) :
    Yields (l.unaryBody true) c (Gives Expr.bare (.unary op e.bare ⟨0, 0⟩) rest) := by
  refine yields_get ?_
  rw [Cursor.lexeme_of_lexemes h, op.unaryOp?_mark]
  refine yields_next h fun span c h => yields_bind (hl.unary he h hfollow) fun e' c he' => ⟨?_, he'.2⟩
  rw [bare_applyUnary, he'.1]
  intro hneg hinteger
  rw [← isInteger_bare, he'.1, isInteger_bare] at hinteger
  exact hop hneg hinteger

theorem yields_unaryBody_negative {value : Int64} (h : c.lexemes = .mark .minus :: .integer (-value) :: rest)
    (hinteger : ∀ c', c'.lexemes = .integer (-value) :: rest →
      YieldsOr allowed (l.unary true) c' (Gives Expr.bare (.literal (.int (-value)) ⟨0, 0⟩) rest)) :
    YieldsOr allowed (l.unaryBody true) c (Gives Expr.bare (.literal (.int value) ⟨0, 0⟩) rest) := by
  refine yields_get ?_
  rw [Cursor.lexeme_of_lexemes h]
  refine yields_next h fun span c h => yields_bind (hinteger c h) fun e' c he' => ⟨?_, he'.2⟩
  exact bare_applyUnary_magnitude he'.1

theorem yields_unaryBody_parens (hl : l.ReadsBack) {braces : Bool} {e : Expr} (he : e.Signed)
    (h : c.lexemes = inParens e.written ++ rest) (hfollow : follow rest < postfixPrecedence) :
    Yields (l.unaryBody braces) c (Gives Expr.bare e.bare rest) :=
  yields_unaryBody_operand h rfl (yields_operand_parens hl he h hfollow)

/-- What an expression that binds as tightly as a unary operator is read as. -/
theorem yields_unaryBody (hl : l.ReadsBack) {e : Expr} (he : e.Signed)
    (h : c.lexemes = inPlace unaryPrecedence e e.written ++ rest) (hfollow : follow rest < postfixPrecedence) :
    Yields (l.unaryBody true) c (Gives Expr.bare e.bare rest) := by
  by_cases hparens : e.precedence < unaryPrecedence
  · rw [inPlace, if_pos hparens] at h
    exact yields_unaryBody_parens hl he h hfollow
  rw [inPlace, if_neg hparens] at h
  by_cases hpostfix : e.precedence < postfixPrecedence
  · cases e with
    | unary op operand span => exact yields_unaryBody_unary hl he.1 he.2 h hfollow
    | literal value span =>
      cases value with
      | int value =>
        rw [Expr.written, Literal.written] at h
        split at h
        · exact yields_unaryBody_negative h fun _ h => hl.integer h hfollow
        · exact yields_unaryBody_operand h rfl (yields_operand_literal (.int value) h hfollow)
      | _ => exact absurd hpostfix (Nat.lt_irrefl _)
    | binary op left right span => exact absurd (Nat.lt_succ_of_le op.precedence_le) hparens
    | _ => exact absurd hpostfix (Nat.lt_irrefl _)
  · obtain ⟨x, ls, hwritten, -, hx⟩ := e.written_begins
    have hx : unaryOp? x = none := Classical.not_not.mp fun hunary => hpostfix (hx hunary)
    have hfirst : c.lexemes = x :: (ls ++ rest) := by rw [h, hwritten, List.cons_append]
    refine yields_unaryBody_operand hfirst hx (yields_operand hl he ?_ hfollow)
    rw [inPlace, if_neg hpostfix]
    exact h

/-! ### Conditionals -/

theorem Block.follow_written (b : Block) (rest : List Lexeme) : follow (b.written ++ rest) = 0 := by
  cases b
  rfl

theorem yields_otherwise (hl : l.ReadsBack) {o : Otherwise} (ho : o.Signed) (h : c.lexemes = o.written ++ rest)
    (hfollow : follow rest ≤ postfixPrecedence) : Yields (l.otherwise true) c (Gives Otherwise.bare o.bare rest) := by
  cases o with
  | nothing => exact yields_skipKeyword (Cursor.atKeyword_of_follow h (Nat.lt_succ_of_le hfollow)) ⟨rfl, h⟩
  | block b =>
    refine yields_takeKeyword h fun c h => yields_skipKeyword ?_ ?_
    · cases b
      exact Cursor.atKeyword_of_lexemes h _
    · exact yields_bind (hl.block ho h) fun b' c hb' => ⟨congrArg Otherwise.block hb'.1, hb'.2⟩
  | branch b =>
    obtain ⟨condition, body, otherwise, span⟩ := b
    refine yields_takeKeyword h fun c h => yields_takeKeyword h fun c h => ?_
    have hbranch : .keyword .cond :: c.lexemes = (Branch.mk condition body otherwise span).written ++ rest := by
      rw [h]
      rfl
    exact yields_bind (hl.branch ho hbranch hfollow) fun b' c hb' => ⟨congrArg Otherwise.branch hb'.1, hb'.2⟩

theorem yields_branchBody (hl : l.ReadsBack) {b : Branch} (hb : b.Signed) (h : .keyword .cond :: c.lexemes = b.written ++ rest)
    (hfollow : follow rest ≤ postfixPrecedence) : Yields (l.branchBody true) c (Gives Branch.bare b.bare rest) := by
  obtain ⟨condition, body, otherwise, span⟩ := b
  rw [Branch.written, List.cons_append, List.append_assoc, List.append_assoc] at h
  refine yields_get ?_
  refine yields_bind (yields_condition hl hb.1 (List.cons.inj h).2 (Block.follow_written _ _)) fun condition' c hcondition => ?_
  refine yields_bind (hl.block hb.2.1 hcondition.2) fun body' c hbody => ?_
  refine yields_bind (yields_otherwise hl hb.2.2 hbody.2 hfollow) fun otherwise' c hotherwise => ⟨?_, hotherwise.2⟩
  rw [Branch.bare, Branch.bare, hcondition.1, hbody.1, hotherwise.1]

/-! ### Statements -/

theorem yields_mutable {α : Type} {mutable : Bool} {f : Bool → Parser α} {Q : α → Cursor → Prop} {name : String}
    (h : c.lexemes = mutableWritten mutable ++ .word name :: rest)
    (hf : ∀ c', c'.lexemes = .word name :: rest → Yields (f mutable) c' Q) : Yields (takeKeyword .mutable >>= f) c Q := by
  cases mutable with
  | true => exact yields_takeKeyword h hf
  | false => exact yields_skipKeyword (Cursor.atKeyword_of_lexemes h _) (hf c h)

theorem yields_bindStmt (hl : l.ReadsBack) {name : Ident} {mutable : Bool} {value : Option Expr} {span : Span} {start : Nat}
    (hs : Expr.SignedIfAny value) (h : .keyword .bind :: c.lexemes = (Stmt.bind name mutable value span).written ++ rest) :
    Yields (l.bindStmt true start) c (Gives Stmt.bare (Stmt.bind name mutable value span).bare rest) := by
  cases value with
  | none =>
    rw [Stmt.written, List.cons_append, List.append_assoc] at h
    refine yields_mutable (List.cons.inj h).2 fun c h => yields_ident h fun i c hi h => ?_
    refine yields_skipMark (Cursor.atMark_of_lexemes h _) (yields_expect h fun _ c h => ⟨?_, h⟩)
    rw [Stmt.bare, hi]
    rfl
  | some e =>
    rw [Stmt.written, List.cons_append, List.append_assoc, List.cons_append, List.cons_append, List.append_assoc] at h
    refine yields_mutable (List.cons.inj h).2 fun c h => yields_ident h fun i c hi h => yields_takeMark h fun c h => ?_
    refine yields_bind (yields_expression hl hs h rfl) fun e' c he => yields_expect he.2 fun _ c h => ⟨?_, h⟩
    rw [Stmt.bare, Expr.bareIfAny, hi, he.1]
    rfl

theorem yields_params (fuel : Nat) {first : Ident} {ps : List Ident}
    (h : c.lexemes = withCommas ((first :: ps).map fun p => [.word p.name]) ++ .mark .closeParen :: rest)
    (hfuel : c.lexemes.length ≤ fuel) :
    Yields (params fuel) c (Gives (List.map Ident.bare) ((first :: ps).map Ident.bare) (.mark .closeParen :: rest)) := by
  induction fuel generalizing c first ps with
  | zero =>
    rw [h] at hfuel
    exact absurd hfuel (Nat.not_succ_le_zero _)
  | succ fuel ih =>
    cases ps with
    | nil =>
      refine yields_ident h fun i c hi h => yields_skipMark (not_comma_of_closes (.inl rfl) h) ⟨?_, h⟩
      rw [List.map_singleton, hi]
      rfl
    | cons next ps =>
      refine yields_ident h fun i c hi hcomma => yields_takeMark hcomma fun c hnext => yields_get ?_
      refine yields_ite_neg ?_ ?_
      · rw [Cursor.atMark_of_lexemes hnext]
        exact Bool.false_ne_true
      · have hfuel : c.lexemes.length ≤ fuel := by
          rw [h] at hfuel
          rw [hnext]
          exact Nat.le_trans (Nat.le_succ _) (Nat.le_of_succ_le_succ hfuel)
        refine yields_bind (ih hnext hfuel) fun ps' c hps => ⟨?_, hps.2⟩
        rw [List.map_cons, hps.1, hi]
        rfl

theorem yields_funcStmt (hl : l.ReadsBack) {name : Ident} {ps : List Ident} {body : Block} {span : Span} {start : Nat}
    (hs : body.Signed) (h : .keyword .func :: c.lexemes = (Stmt.func name ps body span).written ++ rest) :
    Yields (l.funcStmt true start) c (Gives Stmt.bare (Stmt.func name ps body span).bare rest) := by
  rw [Stmt.written, List.cons_append, List.cons_append, inParens, List.cons_append, List.cons_append, List.append_assoc,
    List.append_assoc] at h
  refine yields_ident (List.cons.inj h).2 fun i c hi h => yields_expect h fun _ c h => yields_get ?_
  -- The parameters are read, and then the body.
  have behind {names : List Ident} {c : Cursor} (hnames : names.map Ident.bare = ps.map Ident.bare)
      (h : c.lexemes = .mark .closeParen :: (body.written ++ rest)) : Yields (do
        let _ ← expect .closeParen
        let body ← l.block true
        return Stmt.func i names body ⟨start, body.span.stop⟩) c
      (Gives Stmt.bare (Stmt.func name ps body span).bare rest) := by
    refine yields_expect h fun _ c h => yields_bind (hl.block hs h) fun body' c hbody => ⟨?_, hbody.2⟩
    rw [Stmt.bare, Stmt.bare, hi, hnames, hbody.1]
    rfl
  cases ps with
  | nil =>
    rw [Cursor.atMark_of_lexemes h]
    exact behind rfl h
  | cons first ps =>
    rw [Cursor.atMark_of_lexemes h]
    refine yields_get ?_
    refine yields_bind (yields_params _ h (Nat.le_of_eq c.lexemes_length)) fun names c hnames => ?_
    exact behind hnames.1 hnames.2

theorem yields_retStmt (hl : l.ReadsBack) {value : Option Expr} {span : Span} {start : Nat}
    (hs : Expr.SignedIfAny value) (h : .keyword .ret :: c.lexemes = (Stmt.ret value span).written ++ rest) :
    Yields (l.retStmt true start) c (Gives Stmt.bare (Stmt.ret value span).bare rest) := by
  rw [Stmt.written, List.cons_append, List.append_assoc] at h
  have h := (List.cons.inj h).2
  refine yields_get ?_
  cases value with
  | none =>
    have h : c.lexemes = .mark .semicolon :: rest := h
    rw [Cursor.atMark_of_lexemes h]
    exact yields_next h fun _ c h => ⟨rfl, h⟩
  | some e =>
    rw [(e.written_begins.append _).atMark h rfl]
    refine yields_bind (yields_expression hl hs h rfl) fun e' c he => yields_expect he.2 fun _ c h => ⟨?_, h⟩
    rw [Stmt.bare, Expr.bareIfAny, he.1]
    rfl

theorem yields_loopStmt (hl : l.ReadsBack) {condition : Expr} {body : Block} {span : Span} {start : Nat}
    (hs : condition.Signed ∧ body.Signed) (h : .keyword .loop :: c.lexemes = (Stmt.loop condition body span).written ++ rest) :
    Yields (l.loopStmt true start) c (Gives Stmt.bare (Stmt.loop condition body span).bare rest) := by
  rw [Stmt.written, List.cons_append, List.append_assoc] at h
  refine yields_bind (yields_condition hl hs.1 (List.cons.inj h).2 (Block.follow_written _ _)) fun condition' c hcondition => ?_
  refine yields_bind (hl.block hs.2 hcondition.2) fun body' c hbody => ⟨?_, hbody.2⟩
  rw [Stmt.bare, Stmt.bare, hcondition.1, hbody.1]

/-- What stands in a block is a statement that looks like this without its spans, and the rest is left. -/
def GivesStmt (s : Stmt) (rest : List Lexeme) : Item → Cursor → Prop
  | .stmt s', c => Gives Stmt.bare s.bare rest s' c
  | .tail _, _ => False

/-- The value that is assigned, and the end of the statement. -/
theorem yields_assigned (hl : l.ReadsBack) {value : Expr} {s : Stmt} {node : Expr → Span → Stmt} {start : Nat}
    (hnode : ∀ value' span, value'.bare = value.bare → (node value' span).bare = s.bare) (hs : value.Signed)
    (h : c.lexemes = value.written ++ .mark .semicolon :: rest) :
    Yields (do
      let value ← l.expression true
      return node value ⟨start, (← expect .semicolon).stop⟩) c (Gives Stmt.bare s.bare rest) :=
  yields_bind (yields_expression hl hs h rfl) fun value' _ hvalue =>
    yields_expect hvalue.2 fun _ _ h => ⟨hnode value' _ hvalue.1, h⟩

theorem yields_exprItem_assign (hl : l.ReadsBack) {target : Ident} {value : Expr} {span : Span} (hs : value.Signed)
    (h : c.lexemes = (Stmt.assign target value span).written ++ rest) :
    Yields (l.exprItem true) c (GivesStmt (.assign target value span) rest) := by
  rw [Stmt.written, List.cons_append, List.cons_append, List.append_assoc] at h
  have htarget : (Expr.name target).Signed := trivial
  refine yields_bind (yields_expression hl (e := .name target) htarget h rfl) fun target' c htarget => ?_
  refine yields_takeMark htarget.2 fun c h => ?_
  cases target' with
  | name i =>
    have assigned : Yields (l.assignStmt true (.name i)) c (Gives Stmt.bare (Stmt.assign target value span).bare rest) :=
      yields_assigned hl (fun value' span hvalue => by rw [Stmt.bare, Stmt.bare, hvalue, Expr.name.inj htarget.1]) hs h
    exact yields_bind assigned fun s' c hs' => hs'
  | _ => cases htarget.1

theorem yields_exprItem_setIndex (hl : l.ReadsBack) {base position value : Expr} {span : Span}
    (hs : base.Signed ∧ position.Signed ∧ value.Signed)
    (h : c.lexemes = (Stmt.setIndex base position value span).written ++ rest) :
    Yields (l.exprItem true) c (GivesStmt (.setIndex base position value span) rest) := by
  have h : c.lexemes = (Expr.index base position span).written ++ .mark .eq :: (value.written ++ .mark .semicolon :: rest) := by
    rw [h, Stmt.written, Expr.written]
    simp only [List.append_assoc, List.cons_append, List.nil_append]
  have htarget : (Expr.index base position span).Signed := ⟨hs.1, hs.2.1⟩
  refine yields_bind (yields_expression hl htarget h rfl) fun target' c htarget => ?_
  refine yields_takeMark htarget.2 fun c h => ?_
  cases target' with
  | index base' position' span' =>
    obtain ⟨hbase, hposition, -⟩ := Expr.index.inj htarget.1
    have assigned : Yields (l.assignStmt true (.index base' position' span')) c
        (Gives Stmt.bare (Stmt.setIndex base position value span).bare rest) :=
      yields_assigned hl (fun value' span hvalue => by rw [Stmt.bare, Stmt.bare, hvalue, hbase, hposition]) hs.2.2 h
    exact yields_bind assigned fun s' c hs' => hs'
  | _ => cases htarget.1

theorem yields_exprItem_eval (hl : l.ReadsBack) {e : Expr} (hs : e.Signed) (h : c.lexemes = (Stmt.eval e).written ++ rest) :
    Yields (l.exprItem true) c (GivesStmt (.eval e) rest) := by
  rw [Stmt.written, List.append_assoc] at h
  refine yields_bind (yields_expression hl hs h rfl) fun e' c he => ?_
  refine yields_skipMark (Cursor.atMark_of_lexemes he.2 _) (yields_takeMark he.2 fun c h => ?_)
  exact ⟨congrArg Stmt.eval he.1, h⟩

/-- No statement but an expression begins as an expression does. -/
theorem yields_item_expr {unary : Prop} {ls : List Lexeme} {Q : Item → Cursor → Prop} (hls : Begins unary ls)
    (h : c.lexemes = ls ++ rest) (hp : YieldsOr allowed (l.exprItem true) c Q) : YieldsOr allowed (l.item true) c Q := by
  obtain ⟨x, more, rfl, hx, -⟩ := hls
  refine yields_get ?_
  rw [Cursor.lexeme_of_lexemes h]
  cases x with
  | keyword k =>
    cases k with
    | cond | yes | no => exact hp
    | _ => cases hx
  | _ => exact hp

theorem yields_item (hl : l.ReadsBack) {s : Stmt} (hs : s.Signed) (h : c.lexemes = s.written ++ rest) :
    Yields (l.item true) c (GivesStmt s rest) := by
  -- A statement that begins with a keyword of its own.
  have keyworded {k : Keyword} {p : Nat → Parser Stmt} {ls : List Lexeme} (hk : s.written ++ rest = .keyword k :: ls)
      (hp : ∀ start c', .keyword k :: c'.lexemes = s.written ++ rest → Yields (p start) c' (Gives Stmt.bare s.bare rest)) :
      Yields (do
        let start := (← next).start
        return Item.stmt (← p start)) c (GivesStmt s rest) :=
    yields_next (h.trans hk) fun span c h => yields_bind (hp span.start c (h ▸ hk.symm)) fun s' c hs' => hs'
  have hlexeme {x : Lexeme} {ls : List Lexeme} (hx : s.written ++ rest = x :: ls) : c.lexeme = x :=
    Cursor.lexeme_of_lexemes (h.trans hx)
  cases s with
  | bind name mutable value span =>
    obtain ⟨ls, hls⟩ : ∃ ls, (Stmt.bind name mutable value span).written ++ rest = .keyword .bind :: ls := by
      cases value with
      | none => exact ⟨_, rfl⟩
      | some e => exact ⟨_, rfl⟩
    refine yields_get ?_
    rw [hlexeme hls]
    exact keyworded hls fun start c h => yields_bindStmt hl hs h
  | func name ps body span =>
    refine yields_get ?_
    rw [hlexeme rfl]
    exact keyworded rfl fun start c h => yields_funcStmt hl hs h
  | ret value span =>
    refine yields_get ?_
    rw [hlexeme rfl]
    exact keyworded rfl fun start c h => yields_retStmt hl hs h
  | loop condition body span =>
    refine yields_get ?_
    rw [hlexeme rfl]
    exact keyworded rfl fun start c h => yields_loopStmt hl hs h
  | leave span =>
    refine yields_get ?_
    rw [hlexeme rfl]
    exact yields_next h fun span c h => yields_expect h fun _ c h => ⟨rfl, h⟩
  | next span =>
    refine yields_get ?_
    rw [hlexeme rfl]
    exact yields_next h fun span c h => yields_expect h fun _ c h => ⟨rfl, h⟩
  | assign target value span =>
    have hbegins : Begins False (Stmt.assign target value span).written := ⟨_, _, rfl, rfl, fun h => absurd rfl h⟩
    exact yields_item_expr hbegins h (yields_exprItem_assign hl hs h)
  | setIndex base position value span =>
    have hbegins : Begins True (Stmt.setIndex base position value span).written := by
      rw [Stmt.written]
      exact (base.written_begins.inPlace fun _ _ => trivial).append _
    exact yields_item_expr hbegins h (yields_exprItem_setIndex hl hs h)
  | eval e =>
    have hbegins : Begins (e.precedence < postfixPrecedence) (Stmt.eval e).written := by
      rw [Stmt.written]
      exact e.written_begins.append _
    exact yields_item_expr hbegins h (yields_exprItem_eval hl hs h)

/-! ### Blocks -/

/-- A block or a fragment ends here. -/
def Ends (rest : List Lexeme) : Prop := rest.headD .endOfInput = .mark .closeBrace ∨ rest.headD .endOfInput = .endOfInput

theorem Ends.follow (h : Ends rest) : follow rest = 0 := by
  unfold Tree.follow
  rcases h with h | h
  all_goals
    rw [h]
    rfl

theorem Ends.atEnd (h : Ends rest) (hc : c.lexemes = rest) : (c.atMark .closeBrace || c.atEnd) = true := by
  rw [Cursor.atMark, Cursor.atEnd, Cursor.lexeme_eq hc]
  rcases h with h | h
  all_goals
    rw [h]
    rfl

theorem Ends.atMark (h : Ends rest) (hc : c.lexemes = rest) {m : Mark} (hm : m ≠ .closeBrace) : c.atMark m = false := by
  rw [Cursor.atMark, Cursor.lexeme_eq hc]
  rcases h with h | h
  · rw [h]
    exact decide_eq_false fun heq => hm heq.symm
  · rw [h]
    rfl

/-- The value of a block is an expression before its end. -/
theorem yields_item_tail {e : Expr} (he : l.ReadsExpr allowed e) (h : c.lexemes = e.written ++ rest) (hrest : Ends rest) :
    YieldsOr allowed (l.item true) c fun item c' => ∃ e', item = .tail e' ∧ Gives Expr.bare e.bare rest e' c' := by
  refine yields_item_expr e.written_begins h ?_
  refine yields_bind (he h hrest.follow) fun e' c he' => ?_
  refine yields_skipMark (hrest.atMark he'.2 (by decide)) (yields_skipMark (hrest.atMark he'.2 (by decide)) (yields_get ?_))
  refine yields_ite_neg ?_ ⟨e', rfl, he'⟩
  rw [hrest.atEnd he'.2, Bool.not_true, Bool.and_false]
  exact Bool.false_ne_true

/-- Something is read that is not the end of the block. -/
theorem yields_blockItems_item {fuel : Nat} {ls : List Lexeme} {Q : List Stmt × Option Expr → Cursor → Prop}
    (hls : BeginsItem ls) (h : c.lexemes = ls) (hp : Yields (do
      match ← l.item true with
      | .tail e => return ([], some e)
      | .stmt s =>
        let (stmts, tail) ← l.blockItems true fuel
        return (s :: stmts, tail)) c Q) : Yields (l.blockItems true (fuel + 1)) c Q := by
  obtain ⟨x, more, rfl, hbrace, hsemicolon, hend⟩ := hls
  refine yields_get (yields_ite_neg ?_ (yields_skipMark ((Cursor.atMark_of_lexemes h _).trans hsemicolon) hp))
  rw [Cursor.atMark_of_lexemes h, hbrace, Cursor.atEnd, Cursor.lexeme_of_lexemes h, hend]
  exact Bool.false_ne_true

theorem yields_blockItems (hl : l.ReadsBack) (fuel : Nat) {stmts : List Stmt} {tail : Option Expr}
    (hstmts : Stmt.SignedAll stmts) (htail : Expr.SignedIfAny tail)
    (h : c.lexemes = Stmt.writtenAll stmts ++ (Expr.writtenIfAny tail ++ .mark .closeBrace :: rest))
    (hfuel : c.lexemes.length ≤ fuel) :
    Yields (l.blockItems true fuel) c fun r c' => Stmt.bareAll r.1 = Stmt.bareAll stmts ∧
      Expr.bareIfAny r.2 = Expr.bareIfAny tail ∧ c'.lexemes = .mark .closeBrace :: rest := by
  have hrest : Ends (.mark .closeBrace :: rest) := .inl rfl
  induction fuel generalizing c stmts with
  | zero =>
    simp only [h, List.length_append, List.length_cons] at hfuel
    omega
  | succ fuel ih =>
    cases stmts with
    | cons s stmts =>
      rw [Stmt.writtenAll, List.append_assoc] at h
      refine yields_blockItems_item (s.written_begins.append _) h ?_
      refine yields_bind (yields_item hl hstmts.1 h) fun item c' hitem => ?_
      cases item with
      | tail e => exact hitem.elim
      | stmt s' =>
        have hfuel : c'.lexemes.length ≤ fuel := by
          obtain ⟨x, ls, hwritten, -⟩ := s.written_begins
          rw [h, hwritten] at hfuel
          rw [hitem.2]
          simp only [List.length_append, List.length_cons] at hfuel ⊢
          omega
        refine yields_bind (ih hstmts.2 hitem.2 hfuel) fun r c hr => ⟨?_, hr.2⟩
        rw [Stmt.bareAll, Stmt.bareAll, hitem.1, hr.1]
    | nil =>
      cases tail with
      | none =>
        refine yields_get ?_
        rw [hrest.atEnd h]
        exact ⟨rfl, rfl, h⟩
      | some e =>
        refine yields_blockItems_item (e.written_begins.item.append _) h ?_
        refine yields_bind (yields_item_tail (yields_expression hl htail) h hrest) fun item c he => ?_
        obtain ⟨e', rfl, he, h⟩ := he
        exact ⟨rfl, congrArg some he, h⟩

theorem yields_blockBody (hl : l.ReadsBack) {b : Block} (hb : b.Signed) (h : c.lexemes = b.written ++ rest) :
    Yields (l.blockBody true) c (Gives Block.bare b.bare rest) := by
  obtain ⟨stmts, tail, span⟩ := b
  rw [Block.written, List.cons_append, List.append_assoc, List.append_assoc] at h
  refine yields_expect h fun _ c h => yields_get ?_
  refine yields_bind (yields_blockItems hl _ hb.1 hb.2 h (Nat.le_of_eq c.lexemes_length)) fun r c hr => ?_
  refine yields_expect hr.2.2 fun _ c h => ⟨?_, h⟩
  rw [Block.bare, Block.bare, hr.1, hr.2.1]

/-! ### All levels -/

theorem readsBack_around (hl : l.ReadsBack) : l.around.ReadsBack where
  unary he h hfollow := yields_enter h fun _ h => yields_unaryBody hl he h hfollow
  integer h hfollow := yields_enter h fun _ h => yields_unaryBody_operand h rfl (yields_operand_literal _ h hfollow)
  parens he h hfollow := yields_enter h fun _ h => yields_unaryBody_parens hl he h hfollow
  block hb h := yields_enter h fun _ h => yields_blockBody hl hb h
  branch hb h hfollow := yields_enter rfl fun _ hc => yields_branchBody hl hb (hc ▸ h) hfollow

/-- Where no room is left, that is what is reported. -/
theorem readsBack_floor : floor.ReadsBack where
  unary _ _ _ := yields_get yields_tooDeep
  integer _ _ := yields_get yields_tooDeep
  parens _ _ _ := yields_get yields_tooDeep
  block _ _ := yields_get yields_tooDeep
  branch _ _ _ := yields_get yields_tooDeep

theorem readsBack_withRoom (room : Nat) : (withRoom room).ReadsBack := by
  induction room with
  | zero => exact readsBack_floor
  | succ room ih => exact readsBack_around ih

end
end Level
/-! ### Fragments -/

namespace Reading

/-- What was written was read, or something in it nests too deep. -/
def Matches (r : Reading) (stmts : List Stmt) (tail : Option Expr) : Prop :=
  (r.errors = [] ∧ Stmt.bareAll r.stmts = Stmt.bareAll stmts ∧ Expr.bareIfAny r.tail = Expr.bareIfAny tail) ∨
    ∃ e ∈ r.errors, e.cause = .tooDeep

theorem ofCursor_end (fuel : Nat) {c : Cursor} (h : c.atEnd = true) : ofCursor fuel c = ⟨[], none, [], c.span.start⟩ := by
  cases fuel with
  | zero => rfl
  | succ fuel => rw [ofCursor, if_pos h]

/-- Something is read that is no semicolon. -/
theorem ofCursor_item {fuel : Nat} {c : Cursor} {ls : List Lexeme} (hls : BeginsItem ls) (h : c.lexemes = ls) :
    ofCursor (fuel + 1) c = match Level.top.item true { c with peak := 0 } with
      | .ok (.stmt s) after => (ofCursor fuel after).addStmt s
      | .ok (.tail e) after =>
        if after.atEnd then (ofCursor fuel after).addTail e
        else (ofCursor fuel after.skipStatement).addError ⟨.expectedSemicolon, after.span⟩
      | .error e after => (ofCursor fuel after.skipStatement).addError e := by
  obtain ⟨x, more, rfl, -, hsemicolon, hend⟩ := hls
  have notEnd : c.atEnd = false := by rw [Cursor.atEnd, Cursor.lexeme_of_lexemes h, hend]
  have notSemicolon : c.atMark .semicolon = false := (Cursor.atMark_of_lexemes h _).trans hsemicolon
  rw [ofCursor, notEnd, notSemicolon]
  rfl

theorem Matches.tooDeep {r : Reading} {stmts : List Stmt} {tail : Option Expr} {e : SyntaxError} (h : e.cause = .tooDeep) :
    (r.addError e).Matches stmts tail := .inr ⟨e, .head _, h⟩

theorem Matches.addStmt {r : Reading} {stmts : List Stmt} {tail : Option Expr} {s s' : Stmt} (h : r.Matches stmts tail)
    (hs : s'.bare = s.bare) : (r.addStmt s').Matches (s :: stmts) tail := by
  rcases h with ⟨herrors, hstmts, htail⟩ | htooDeep
  · refine .inl ⟨herrors, ?_, htail⟩
    rw [Reading.addStmt, Stmt.bareAll, Stmt.bareAll, hs, hstmts]
  · exact .inr htooDeep

theorem ofCursor_written (fuel : Nat) {c : Cursor} {stmts : List Stmt} {tail : Option Expr}
    (hstmts : Stmt.SignedAll stmts) (htail : Expr.SignedIfAny tail)
    (h : c.lexemes = Stmt.writtenAll stmts ++ (Expr.writtenIfAny tail ++ [.endOfInput])) (hfuel : c.lexemes.length ≤ fuel) :
    (ofCursor fuel c).Matches stmts tail := by
  have hl : Level.top.ReadsBack := Level.readsBack_withRoom maxNesting
  have atEnd {c : Cursor} (h : c.lexemes = [.endOfInput]) : c.atEnd = true := by
    rw [Cursor.atEnd, Cursor.lexeme_of_lexemes h]
    rfl
  induction fuel generalizing c stmts with
  | zero =>
    simp only [h, List.length_append, List.length_cons] at hfuel
    omega
  | succ fuel ih =>
    cases stmts with
    | cons s stmts =>
      rw [Stmt.writtenAll, List.append_assoc] at h
      rw [ofCursor_item (s.written_begins.append _) h]
      rcases (Level.yields_item hl (c := { c with peak := 0 }) hstmts.1 h).cases with ⟨item, after, hrun, read⟩ | ⟨e, after, hrun, deep⟩
      · rw [hrun]
        cases item with
        | tail e => exact read.elim
        | stmt s' =>
          refine (ih hstmts.2 read.2 ?_).addStmt read.1
          obtain ⟨x, ls, hwritten, -⟩ := s.written_begins
          rw [h, hwritten] at hfuel
          rw [read.2]
          simp only [List.length_append, List.length_cons] at hfuel ⊢
          omega
      · rw [hrun]
        exact .tooDeep deep
    | nil =>
      cases tail with
      | none => exact ofCursor_end (fuel + 1) (atEnd h) ▸ .inl ⟨rfl, rfl, rfl⟩
      | some e =>
        rw [ofCursor_item (e.written_begins.item.append _) h]
        rcases (Level.yields_item_tail (c := { c with peak := 0 }) (Level.yields_expression hl htail) h (.inr rfl)).cases
          with ⟨item, after, hrun, e', rfl, he, h⟩ | ⟨error, after, hrun, deep⟩
        · rw [hrun]
          show Matches (if after.atEnd then (ofCursor fuel after).addTail e' else _) _ _
          rw [if_pos (atEnd h), ofCursor_end fuel (atEnd h)]
          exact .inl ⟨rfl, rfl, congrArg some he⟩
        · rw [hrun]
          exact .tooDeep deep

end Reading

/-! ### Trees that are read -/

theorem Expr.signedAll_of_forall {es : List Expr} (h : ∀ e ∈ es, e.Signed) : Expr.SignedAll es := by
  induction es with
  | nil => trivial
  | cons e es ih => exact ⟨h e (.head _), ih fun e he => h e (.tail _ he)⟩

theorem Expr.signedIfAny_of_forall {value : Option Expr} (h : ∀ e ∈ value, e.Signed) : Expr.SignedIfAny value := by
  cases value with
  | none => trivial
  | some e => exact h e rfl

theorem Stmt.signedAll_of_forall {stmts : List Stmt} (h : ∀ s ∈ stmts, s.Signed) : Stmt.SignedAll stmts := by
  induction stmts with
  | nil => trivial
  | cons s stmts ih => exact ⟨h s (.head _), ih fun s hs => h s (.tail _ hs)⟩

theorem Level.applyUnary_signed {op : UnaryOp} {start : Nat} {e : Expr} (h : e.Signed) : (applyUnary op start e).Signed := by
  cases op with
  | not => exact ⟨fun hop => (nomatch hop), h⟩
  | neg =>
    cases e with
    | literal value span =>
      cases value with
      | int value => trivial
      | _ => exact ⟨fun _ hinteger => hinteger, trivial⟩
    | _ => exact ⟨fun _ hinteger => hinteger, h⟩

/-- The reader makes a minus part of the integer behind it. -/
def signed : Invariant fun _ => True where
  ident _ := True
  expr := Expr.Signed
  branch := Branch.Signed
  otherwise := Otherwise.Signed
  block := Block.Signed
  stmt := Stmt.Signed
  word _ _ _ := trivial
  of_name _ := trivial
  of_path _ _ := trivial
  of_literal := trivial
  of_unary := Level.applyUnary_signed
  of_binary hleft hright := ⟨hleft, hright⟩
  of_call hcallee hargs := ⟨hcallee, Expr.signedAll_of_forall hargs⟩
  of_index hbase hposition := ⟨hbase, hposition⟩
  of_list := Expr.signedAll_of_forall
  of_branch hb := hb
  of_block hb := hb
  branch_mk hcondition hbody ho := ⟨hcondition, hbody, ho⟩
  no_otherwise := trivial
  otherwise_block hb := hb
  otherwise_branch hb := hb
  block_mk hstmts htail := ⟨Stmt.signedAll_of_forall hstmts, Expr.signedIfAny_of_forall htail⟩
  of_bind _ hvalue := Expr.signedIfAny_of_forall hvalue
  of_assign _ hvalue := hvalue
  of_setIndex htarget hvalue := ⟨htarget.1, htarget.2, hvalue⟩
  of_func _ _ hbody := hbody
  of_eval he := he
  of_ret hvalue := Expr.signedIfAny_of_forall hvalue
  of_loop hcondition hbody := ⟨hcondition, hbody⟩
  of_leave := trivial
  of_next := trivial

/-- What was read and is written again reads back as the same tree but for the spans, unless the reader reports that
    something nests too deep. -/
theorem Fragment.ofTokens_written {tokens printed : List Token} {f : Fragment} (h : ofTokens tokens = .ok f)
    (hprinted : printed.map Token.lexeme = f.written) :
    (∃ f', ofTokens printed = .ok f' ∧ f'.bare = f.bare) ∨
      ∃ errors, ofTokens printed = .error errors ∧ ∃ e ∈ errors, e.cause = .tooDeep := by
  obtain ⟨hstmts, htail⟩ := ofTokens_reads signed (fun _ _ => trivial) h
  have read := Reading.ofCursor_written (c := ⟨printed, ⟨0, 0⟩, 0⟩) printed.length (Stmt.signedAll_of_forall hstmts)
    (Expr.signedIfAny_of_forall htail) hprinted (Nat.le_of_eq (List.length_map _))
  simp only [ofTokens]
  rcases read with ⟨herrors, hstmts, htail⟩ | ⟨e, he, hcause⟩
  · rw [herrors]
    refine .inl ⟨_, rfl, ?_⟩
    rw [Fragment.bare, Fragment.bare, hstmts, htail]
  · have hsome : (Reading.ofCursor printed.length ⟨printed, ⟨0, 0⟩, 0⟩).errors.isEmpty = false :=
      List.isEmpty_eq_false_iff.mpr (List.ne_nil_of_mem he)
    rw [hsome]
    exact .inr ⟨_, rfl, e, he, hcause⟩

section
open Lexeme

/-- A token that stands nowhere. -/
def unplaced (x : Lexeme) : Token := ⟨x, ⟨0, 0⟩⟩

/-- An assignment with needless parentheses, and a conditional with an empty statement and a comma before the end of a list. -/
def untidy : List Lexeme :=
  [word "x", mark .eq, mark .openParen, mark .minus, mark .openParen, integer 4, mark .closeParen, mark .minus,
    mark .openParen, integer 2, mark .minus, integer 3, mark .closeParen, mark .closeParen, mark .semicolon,
    keyword .cond, word "x", mark .openBrace, mark .semicolon, word "f", mark .openParen, word "x", mark .comma,
    mark .closeParen, mark .closeBrace, endOfInput]

/-- The same, as it is written. -/
def tidy : List Lexeme :=
  [word "x", mark .eq, mark .minus, integer 4, mark .minus, mark .openParen, integer 2, mark .minus, integer 3,
    mark .closeParen, mark .semicolon, keyword .cond, mark .openParen, word "x", mark .closeParen, mark .openBrace,
    word "f", mark .openParen, word "x", mark .closeParen, mark .closeBrace, endOfInput]

set_option maxRecDepth 4000 in
theorem Fragment.ofTokens_written_tidy : ∃ f, ofTokens (untidy.map unplaced) = .ok f ∧
    (tidy.map unplaced).map Token.lexeme = f.written ∧
    ((∃ f', ofTokens (tidy.map unplaced) = .ok f' ∧ f'.bare = f.bare) ∨
      ∃ errors, ofTokens (tidy.map unplaced) = .error errors ∧ ∃ e ∈ errors, e.cause = .tooDeep) := by
  have hread : ∃ f, ofTokens (untidy.map unplaced) = .ok f ∧ (tidy.map unplaced).map Token.lexeme = f.written :=
    ⟨_, by rfl, by rfl⟩
  obtain ⟨f, hf, hwritten⟩ := hread
  exact ⟨f, hf, hwritten, Fragment.ofTokens_written hf hwritten⟩

end
end ScriptEngine.Tree
