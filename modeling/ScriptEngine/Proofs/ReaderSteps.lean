import ScriptEngine.Proofs.ReaderOutcomes
import ScriptEngine.Proofs.TreePrinter

/-! Steps of a reader. `YieldsOr` follows a reader from token to token and says which errors are left aside; for `Yields`
    that is an error that something nests too deep. An expression that was written begins with certain lexemes
    (`Expr.written_begins`), and where it ends depends on how tightly what follows binds (`follow`). -/

namespace ScriptEngine.Tree

/-! ### Symbolic reading -/

/-- What the tokens before which the cursor stands say. -/
def Cursor.lexemes (c : Cursor) : List Lexeme := c.rest.map Token.lexeme

theorem Cursor.lexemes_length (c : Cursor) : c.lexemes.length = c.rest.length := List.length_map _

theorem Cursor.lexeme_of_lexemes {c : Cursor} {x : Lexeme} {ls : List Lexeme} (h : c.lexemes = x :: ls) :
    c.lexeme = x := by
  obtain ⟨rest, previous, peak⟩ := c
  cases rest with
  | nil => cases h
  | cons t ts => exact (List.cons.inj h).1

theorem Cursor.atMark_of_lexemes {c : Cursor} {x : Lexeme} {ls : List Lexeme} (h : c.lexemes = x :: ls) (m : Mark) :
    c.atMark m = x.isMark m := by
  rw [atMark, lexeme_of_lexemes h]

theorem Cursor.atKeyword_of_lexemes {c : Cursor} {x : Lexeme} {ls : List Lexeme} (h : c.lexemes = x :: ls) (k : Keyword) :
    c.atKeyword k = x.isKeyword k := by
  rw [atKeyword, lexeme_of_lexemes h]

namespace Parser

/-- A reader succeeds and what it gives is as wanted, or it fails in a way that is allowed. -/
def YieldsOr {α : Type} (allowed : SyntaxError → Prop) (p : Parser α) (c : Cursor) (Q : α → Cursor → Prop) : Prop :=
  match p c with
  | .ok a c' => Q a c'
  | .error e _ => allowed e

/-- A reader succeeds and what it gives is as wanted, or it finds that something nests too deep. -/
abbrev Yields {α : Type} (p : Parser α) (c : Cursor) (Q : α → Cursor → Prop) : Prop :=
  YieldsOr (fun e => e.cause = .tooDeep) p c Q

/-- What was read looks like this without its spans, and the rest is left. -/
def Gives {α β : Type} (bare : α → β) (b : β) (rest : List Lexeme) (a : α) (c : Cursor) : Prop :=
  bare a = b ∧ c.lexemes = rest

section
variable {α β : Type} {allowed : SyntaxError → Prop} {p q : Parser α} {f : α → Parser β} {c : Cursor}
  {Q : β → Cursor → Prop} {R : α → Cursor → Prop} {ls : List Lexeme}

theorem yields_pure {b : β} (h : Q b c) : YieldsOr allowed (pure b) c Q := h

theorem yields_bind (hp : YieldsOr allowed p c R) (hf : ∀ a c', R a c' → YieldsOr allowed (f a) c' Q) :
    YieldsOr allowed (p >>= f) c Q :=
  comes_bind (E := fun e _ => allowed e) hp hf

theorem YieldsOr.cases {p : Parser β} (h : YieldsOr allowed p c Q) :
    (∃ b c', p c = .ok b c' ∧ Q b c') ∨ ∃ e c', p c = .error e c' ∧ allowed e := by
  unfold YieldsOr at h
  cases hrun : p c with
  | ok b c' =>
    rw [hrun] at h
    exact .inl ⟨b, c', rfl, h⟩
  | error e c' =>
    rw [hrun] at h
    exact .inr ⟨e, c', rfl, h⟩

theorem yields_mono {p : Parser β} {better : β → Cursor → Prop} (hp : YieldsOr allowed p c better)
    (h : ∀ b c', better b c' → Q b c') : YieldsOr allowed p c Q :=
  Comes.imp (E := fun e _ => allowed e) hp h fun _ _ => id

theorem yields_get {f : Cursor → Parser β} (h : YieldsOr allowed (f c) c Q) : YieldsOr allowed (get >>= f) c Q := h

theorem yields_tooDeep {span : Span} : Yields (fail .tooDeep span : Parser β) c Q := rfl

theorem yields_ite_neg {b : Prop} [Decidable b] {p q : Parser β} (h : ¬b) (hq : YieldsOr allowed q c Q) :
    YieldsOr allowed (if b then p else q) c Q := by
  rwa [if_neg h]

theorem yields_next {x : Lexeme} {f : Span → Parser β} (h : c.lexemes = x :: ls)
    (hf : ∀ span c', c'.lexemes = ls → YieldsOr allowed (f span) c' Q) : YieldsOr allowed (next >>= f) c Q := by
  obtain ⟨rest, previous, peak⟩ := c
  cases rest with
  | nil => cases h
  | cons t ts => exact hf t.span ⟨ts, t.span, peak⟩ (List.cons.inj h).2

theorem yields_takeMark {m : Mark} {f : Bool → Parser β} (h : c.lexemes = .mark m :: ls)
    (hf : ∀ c', c'.lexemes = ls → YieldsOr allowed (f true) c' Q) : YieldsOr allowed (takeMark m >>= f) c Q := by
  refine yields_bind (R := fun taken c' => taken = true ∧ c'.lexemes = ls) (yields_get ?_) fun taken c' hc => ?_
  · rw [if_pos ((Cursor.atMark_of_lexemes h m).trans (decide_eq_true rfl))]
    exact yields_next h fun _ _ hc => ⟨rfl, hc⟩
  · rw [hc.1]
    exact hf c' hc.2

theorem yields_skipMark {m : Mark} {f : Bool → Parser β} (h : c.atMark m = false) (hf : YieldsOr allowed (f false) c Q) :
    YieldsOr allowed (takeMark m >>= f) c Q := by
  refine yields_bind (R := fun taken c' => taken = false ∧ c' = c) (yields_get ?_) fun taken c' hc => ?_
  · rw [h]
    exact ⟨rfl, rfl⟩
  · rw [hc.1, hc.2]
    exact hf

theorem yields_takeKeyword {k : Keyword} {f : Bool → Parser β} (h : c.lexemes = .keyword k :: ls)
    (hf : ∀ c', c'.lexemes = ls → YieldsOr allowed (f true) c' Q) : YieldsOr allowed (takeKeyword k >>= f) c Q := by
  refine yields_bind (R := fun taken c' => taken = true ∧ c'.lexemes = ls) (yields_get ?_) fun taken c' hc => ?_
  · rw [if_pos ((Cursor.atKeyword_of_lexemes h k).trans (decide_eq_true rfl))]
    exact yields_next h fun _ _ hc => ⟨rfl, hc⟩
  · rw [hc.1]
    exact hf c' hc.2

theorem yields_skipKeyword {k : Keyword} {f : Bool → Parser β} (h : c.atKeyword k = false)
    (hf : YieldsOr allowed (f false) c Q) : YieldsOr allowed (takeKeyword k >>= f) c Q := by
  refine yields_bind (R := fun taken c' => taken = false ∧ c' = c) (yields_get ?_) fun taken c' hc => ?_
  · rw [h]
    exact ⟨rfl, rfl⟩
  · rw [hc.1, hc.2]
    exact hf

theorem yields_expect {m : Mark} {f : Span → Parser β} (h : c.lexemes = .mark m :: ls)
    (hf : ∀ span c', c'.lexemes = ls → YieldsOr allowed (f span) c' Q) : YieldsOr allowed (expect m >>= f) c Q := by
  refine yields_bind (R := fun _ c' => c'.lexemes = ls) (yields_get ?_) hf
  rw [if_pos ((Cursor.atMark_of_lexemes h m).trans (decide_eq_true rfl))]
  exact yields_next (f := pure) h fun _ _ hc => hc

theorem yields_ident {name : String} {missing : SyntaxCause} {f : Ident → Parser β}
    (h : c.lexemes = .word name :: ls)
    (hf : ∀ i c', Ident.bare i = ⟨name, ⟨0, 0⟩⟩ → c'.lexemes = ls → YieldsOr allowed (f i) c' Q) :
    YieldsOr allowed (ident missing >>= f) c Q := by
  refine yields_bind (R := fun i c' => Ident.bare i = ⟨name, ⟨0, 0⟩⟩ ∧ c'.lexemes = ls) (yields_get ?_)
    fun i c' hi => hf i c' hi.1 hi.2
  rw [Cursor.lexeme_of_lexemes h]
  exact yields_next h fun _ _ hc => ⟨rfl, hc⟩

theorem yields_openChain {depth : Nat} {f : Nat → Parser β} (h : c.lexemes = ls)
    (hf : ∀ outer c', c'.lexemes = ls → YieldsOr allowed (f outer) c' Q) : YieldsOr allowed (openChain depth >>= f) c Q :=
  hf c.peak { c with peak := depth } h

theorem yields_closeChain {outer : Nat} {f : Unit → Parser β} (h : c.lexemes = ls)
    (hf : ∀ c', c'.lexemes = ls → YieldsOr allowed (f ()) c' Q) : YieldsOr allowed (closeChain outer >>= f) c Q :=
  hf { c with peak := max c.peak outer } h

theorem yields_deepen {f : Unit → Parser β} (h : c.lexemes = ls)
    (hf : ∀ c', c'.lexemes = ls → Yields (f ()) c' Q) : Yields (deepen >>= f) c Q := by
  refine yields_bind (R := fun _ c' => c'.lexemes = ls) ?_ fun _ => hf
  show Yields (if c.peak + 1 > maxNesting then _ else _) { c with peak := c.peak + 1 } _
  split
  · exact yields_get yields_tooDeep
  · exact h

theorem yields_enter {depth : Nat} {p : Parser β} (h : c.lexemes = ls) (hp : ∀ c', c'.lexemes = ls → YieldsOr allowed p c' Q) :
    YieldsOr allowed (enter depth p) c Q :=
  hp { c with peak := max c.peak depth } h

end
end Parser

/-! ### What follows an expression -/

/-- How tightly a lexeme binds to what stands before it; zero if an expression ends before it. -/
def power : Lexeme → Nat
  | .mark .openParen | .mark .openBracket => postfixPrecedence
  | .mark .colonColon | .keyword .otherwise => postfixPrecedence + 1
  | x => (Level.binaryOp? x).elim 0 BinaryOp.precedence

def follow (rest : List Lexeme) : Nat := power (rest.headD .endOfInput)

theorem power_mark (op : BinaryOp) : power (.mark op.mark) = op.precedence := by
  cases op <;> rfl

theorem power_of_binaryOp? {x : Lexeme} {op : BinaryOp} (h : Level.binaryOp? x = some op) : power x = op.precedence := by
  unfold power
  split
  · cases h
  · cases h
  · cases h
  · cases h
  · rw [h, Option.elim_some]

theorem Cursor.lexeme_eq {c : Cursor} {rest : List Lexeme} (h : c.lexemes = rest) : c.lexeme = rest.headD .endOfInput := by
  subst h
  obtain ⟨rest, previous, peak⟩ := c
  cases rest with
  | nil => rfl
  | cons t ts => rfl

/-- A mark that binds more tightly does not follow. -/
theorem Cursor.atMark_of_follow {c : Cursor} {rest : List Lexeme} (h : c.lexemes = rest) {m : Mark}
    (hfollow : follow rest < power (.mark m)) : c.atMark m = false := by
  rw [atMark, lexeme_eq h]
  unfold follow at hfollow
  cases hhead : rest.headD .endOfInput with
  | mark n =>
    rw [hhead] at hfollow
    refine decide_eq_false fun hn => ?_
    rw [hn] at hfollow
    exact Nat.lt_irrefl _ hfollow
  | _ => rfl

theorem Cursor.atKeyword_of_follow {c : Cursor} {rest : List Lexeme} (h : c.lexemes = rest) {k : Keyword}
    (hfollow : follow rest < power (.keyword k)) : c.atKeyword k = false := by
  rw [atKeyword, lexeme_eq h]
  unfold follow at hfollow
  cases hhead : rest.headD .endOfInput with
  | keyword n =>
    rw [hhead] at hfollow
    refine decide_eq_false fun hn => ?_
    rw [hn] at hfollow
    exact Nat.lt_irrefl _ hfollow
  | _ => rfl

/-! ### How an expression begins -/

def opensExpr : Lexeme → Bool
  | .word _ | .integer _ | .float _ | .text _ => true
  | .keyword .yes | .keyword .no | .keyword .cond => true
  | .mark .openParen | .mark .openBracket | .mark .openBrace | .mark .minus | .mark .bang => true
  | _ => false

/-- The lexemes begin an expression, and they begin with a unary operator only if that is wanted. -/
def Begins (unary : Prop) (ls : List Lexeme) : Prop :=
  ∃ x rest, ls = x :: rest ∧ opensExpr x = true ∧ (Level.unaryOp? x ≠ none → unary)

theorem Begins.append {unary : Prop} {ls : List Lexeme} (h : Begins unary ls) (more : List Lexeme) :
    Begins unary (ls ++ more) := by
  obtain ⟨x, rest, rfl, hx, hunary⟩ := h
  exact ⟨x, rest ++ more, rfl, hx, hunary⟩

theorem begins_parens (unary : Prop) (ls : List Lexeme) : Begins unary (inParens ls) :=
  ⟨_, _, rfl, rfl, fun h => absurd rfl h⟩

theorem Begins.inPlace {least : Nat} {e : Expr} {ls : List Lexeme} {unary : Prop}
    (h : Begins (e.precedence < postfixPrecedence) ls)
    (hleast : e.precedence < postfixPrecedence → least ≤ e.precedence → unary) :
    Begins unary (inPlace least e ls) := by
  unfold Tree.inPlace
  split
  · exact begins_parens ..
  · rename_i hge
    obtain ⟨x, rest, hls, hx, hunary⟩ := h
    exact ⟨x, rest, hls, hx, fun hop => hleast (hunary hop) (Nat.le_of_not_lt hge)⟩

/-- Nor is a mark that comes first one that cannot begin an expression. -/
theorem Begins.atMark {unary : Prop} {ls : List Lexeme} (h : Begins unary ls) {c : Cursor} (hc : c.lexemes = ls) {m : Mark}
    (hm : opensExpr (.mark m) = false) : c.atMark m = false := by
  obtain ⟨x, more, rfl, hx, -⟩ := h
  rw [Cursor.atMark, Cursor.lexeme_of_lexemes hc]
  cases x with
  | mark n =>
    refine decide_eq_false fun hn => ?_
    rw [hn, hm] at hx
    cases hx
  | _ => rfl

/-- A unary operator comes first only in an expression that binds less tightly than a call. -/
theorem Expr.written_begins : ∀ e : Expr, Begins (e.precedence < postfixPrecedence) e.written
  | .name _ | .path .. | .list .. => ⟨_, _, rfl, rfl, fun h => absurd rfl h⟩
  | .branch (.mk ..) | .block (.mk ..) => ⟨_, _, rfl, rfl, fun h => absurd rfl h⟩
  | .literal (.int value) _ => by
    rw [Expr.written, Literal.written, Expr.precedence]
    split
    · exact ⟨_, _, rfl, rfl, fun _ => by decide⟩
    · exact ⟨_, _, rfl, rfl, fun h => absurd rfl h⟩
  | .literal (.float _) _ | .literal (.text _) _ => ⟨_, _, rfl, rfl, fun h => absurd rfl h⟩
  | .literal (.bool true) _ | .literal (.bool false) _ => ⟨_, _, rfl, rfl, fun h => absurd rfl h⟩
  | .unary op _ _ => ⟨_, _, rfl, by cases op <;> rfl, fun _ => (by decide : unaryPrecedence < postfixPrecedence)⟩
  | .binary op left _ _ => by
    rw [Expr.written]
    exact ((written_begins left).inPlace fun _ _ => Nat.lt_of_le_of_lt op.precedence_le (by decide)).append _
  | .call callee _ _ => by
    rw [Expr.written]
    exact ((written_begins callee).inPlace fun hlt hge => absurd hlt (Nat.not_lt_of_le hge)).append _
  | .index base _ _ => by
    rw [Expr.written]
    exact ((written_begins base).inPlace fun hlt hge => absurd hlt (Nat.not_lt_of_le hge)).append _

/-- Neither the end of a block nor an empty statement comes first. -/
def BeginsItem (ls : List Lexeme) : Prop :=
  ∃ x rest, ls = x :: rest ∧ x.isMark .closeBrace = false ∧ x.isMark .semicolon = false ∧ x.isEnd = false

theorem BeginsItem.append {ls : List Lexeme} (h : BeginsItem ls) (more : List Lexeme) : BeginsItem (ls ++ more) := by
  obtain ⟨x, rest, rfl, hx⟩ := h
  exact ⟨x, rest ++ more, rfl, hx⟩

theorem Begins.item {unary : Prop} {ls : List Lexeme} (h : Begins unary ls) : BeginsItem ls := by
  obtain ⟨x, rest, rfl, hx, -⟩ := h
  refine ⟨x, rest, rfl, ?_⟩
  cases x with
  | mark m =>
    cases m with
    | closeBrace | semicolon => cases hx
    | _ => exact ⟨rfl, rfl, rfl⟩
  | endOfInput => cases hx
  | _ => exact ⟨rfl, rfl, rfl⟩

theorem Stmt.written_begins (s : Stmt) : BeginsItem s.written := by
  cases s with
  | bind name mutable value span =>
    cases value with
    | _ => exact ⟨_, _, rfl, rfl, rfl, rfl⟩
  | setIndex base position value span =>
    rw [Stmt.written]
    have hbase : Begins True (inPlace postfixPrecedence base base.written) := base.written_begins.inPlace fun _ _ => trivial
    exact hbase.item.append _
  | eval e =>
    rw [Stmt.written]
    exact e.written_begins.item.append _
  | _ => exact ⟨_, _, rfl, rfl, rfl, rfl⟩

end ScriptEngine.Tree
