import ScriptEngine.Proofs.ReaderOutcomes
import ScriptEngine.Proofs.SourceTokens

/-! Places in syntax trees and of syntax errors. A reader goes on from token to token (`Cursor.Leads`). The place of what it
    reads begins with the first token that it took or later and ends with the last one or before (`Cursor.Takes`), and what
    it reports stands no earlier than where it began and no later than where it stopped (`Blames`). So all places in a
    tree are in the text, and errors are reported in its order (`Fragment.parse_errors`). -/

namespace ScriptEngine.Tree

/-! ### Trees in a text -/

mutual

/-- All places in an expression are in the text, and an element begins where its base begins. -/
def Expr.Lies (source : String) : Expr → Prop
  | .name i => i.span.Within source
  | .path library member span => library.span.Within source ∧ member.span.Within source ∧ span.Within source
  | .literal _ span => span.Within source
  | .binary _ left right span => left.Lies source ∧ right.Lies source ∧ span.Within source
  | .unary _ operand span => operand.Lies source ∧ span.Within source
  | .call callee args span => callee.Lies source ∧ Expr.LiesAll source args ∧ span.Within source
  | .index base position span =>
    base.Lies source ∧ position.Lies source ∧ span.Within source ∧ span.start = base.span.start
  | .list items span => Expr.LiesAll source items ∧ span.Within source
  | .branch b => b.Lies source
  | .block b => b.Lies source

def Expr.LiesAll (source : String) : List Expr → Prop
  | [] => True
  | e :: es => e.Lies source ∧ Expr.LiesAll source es

def Expr.LiesIfAny (source : String) : Option Expr → Prop
  | none => True
  | some e => e.Lies source

def Branch.Lies (source : String) : Branch → Prop
  | .mk condition body otherwise span =>
    condition.Lies source ∧ body.Lies source ∧ otherwise.Lies source ∧ span.Within source

def Otherwise.Lies (source : String) : Otherwise → Prop
  | .nothing => True
  | .block b => b.Lies source
  | .branch b => b.Lies source

def Stmt.Lies (source : String) : Stmt → Prop
  | .bind name _ value span => name.span.Within source ∧ Expr.LiesIfAny source value ∧ span.Within source
  | .assign target value span => target.span.Within source ∧ value.Lies source ∧ span.Within source
  | .setIndex base position value span =>
    base.Lies source ∧ position.Lies source ∧ value.Lies source ∧ span.Within source
  | .func name params body span =>
    name.span.Within source ∧ (∀ p ∈ params, p.span.Within source) ∧ body.Lies source ∧ span.Within source
  | .eval e => e.Lies source
  | .ret value span => Expr.LiesIfAny source value ∧ span.Within source
  | .loop condition body span => condition.Lies source ∧ body.Lies source ∧ span.Within source
  | .leave span | .next span => span.Within source

def Stmt.LiesAll (source : String) : List Stmt → Prop
  | [] => True
  | s :: rest => s.Lies source ∧ Stmt.LiesAll source rest

def Block.Lies (source : String) : Block → Prop
  | .mk stmts tail span => Stmt.LiesAll source stmts ∧ Expr.LiesIfAny source tail ∧ span.Within source

end

def Level.Item.Lies (source : String) : Item → Prop
  | .stmt s => s.Lies source
  | .tail e => e.Lies source

section
variable {source : String}

theorem Block.Lies.span {b : Block} (h : b.Lies source) : b.span.Within source := by
  cases b
  exact h.2.2

theorem Branch.Lies.span {b : Branch} (h : b.Lies source) : b.span.Within source := by
  cases b
  exact h.2.2.2

theorem Expr.Lies.span {e : Expr} (h : e.Lies source) : e.span.Within source := by
  cases e with
  | name | literal => exact h
  | path | binary | call => exact h.2.2
  | unary | list => exact h.2
  | index => exact h.2.2.1
  | branch => exact Branch.Lies.span h
  | block => exact Block.Lies.span h

theorem Stmt.Lies.span {s : Stmt} (h : s.Lies source) : s.span.Within source := by
  cases s with
  | bind | assign | loop => exact h.2.2
  | setIndex | func => exact h.2.2.2
  | ret => exact h.2
  | eval => exact Expr.Lies.span h
  | leave | next => exact h

theorem Level.applyUnary_span (op : UnaryOp) (start : Nat) (e : Expr) :
    (applyUnary op start e).span = ⟨start, e.span.stop⟩ := by
  unfold applyUnary
  split
  all_goals rfl

theorem Level.applyUnary_lies (op : UnaryOp) {start : Nat} {e : Expr} (he : e.Lies source)
    (hspan : Span.Within source ⟨start, e.span.stop⟩) : (applyUnary op start e).Lies source := by
  unfold applyUnary
  split
  · exact hspan
  · exact ⟨he, hspan⟩

end

/-! ### Places between tokens -/

namespace Cursor

/-- The tokens before and after this place are in the text, each behind the one before, and the end of input is still to
    come. -/
def Placed (source : String) (c : Cursor) : Prop :=
  (∃ t ∈ c.rest, t.lexeme.isEnd = true) ∧
  (c.previous :: c.rest.map Token.span).Pairwise (fun a b => a.stop ≤ b.start) ∧
  ∀ s ∈ c.previous :: c.rest.map Token.span, s.Within source

/-- From this place a reader goes on to that one. -/
def Leads (source : String) (c c' : Cursor) : Prop :=
  c'.Placed source ∧ c.previous.start ≤ c'.previous.start ∧ c.previous.stop ≤ c'.previous.stop ∧
    c.span.start ≤ c'.span.start

/-- From this place to that one a reader takes at least a token, and a range between them. -/
def Takes (source : String) (c : Cursor) (s : Span) (c' : Cursor) : Prop :=
  c.Leads source c' ∧ c.span.start ≤ c'.previous.start ∧ s.Within source ∧ c.span.start ≤ s.start ∧
    s.stop ≤ c'.previous.stop

/-- What comes next begins here or later. -/
def Ready (source : String) (least : Nat) (c : Cursor) : Prop := c.Placed source ∧ least ≤ c.span.start

end Cursor

/-- An error is reported in the text, here or later, but not behind what comes next. -/
def Blames (source : String) (least : Nat) (e : SyntaxError) (c : Cursor) : Prop :=
  c.Placed source ∧ e.span.Within source ∧ least ≤ e.span.start ∧ e.span.start ≤ c.span.start

namespace Cursor

section
variable {source : String} {c c₀ c₁ c' c'' : Cursor} {least : Nat} {s t : Span}

theorem advance_previous (c : Cursor) : c.advance.previous = c.span := by
  unfold advance span
  split
  all_goals simp only [*]

theorem Placed.previous (h : c.Placed source) : c.previous.Within source := h.2.2 _ (.head _)

theorem Placed.next (h : c.Placed source) : c.span.Within source ∧ c.previous.stop ≤ c.span.start := by
  obtain ⟨⟨last, hlast, _⟩, separate, within⟩ := h
  unfold Cursor.span
  split
  · rename_i hrest
    rw [hrest] at hlast
    cases hlast
  · rename_i t ts hrest
    have first : t.span ∈ c.rest.map Token.span := by
      rw [hrest]
      exact .head _
    exact ⟨within _ (.tail _ first), List.rel_of_pairwise_cons separate first⟩

/-! ### Going on -/

theorem Placed.leads (h : c.Placed source) : c.Leads source c := ⟨h, Nat.le_refl _, Nat.le_refl _, Nat.le_refl _⟩

theorem Leads.placed (h : c.Leads source c') : c'.Placed source := h.1

theorem Leads.next (h : c.Leads source c') : c.span.start ≤ c'.span.start := h.2.2.2

theorem Leads.trans (h : c.Leads source c') (h' : c'.Leads source c'') : c.Leads source c'' := by
  obtain ⟨-, start, stop, next⟩ := h
  obtain ⟨placed, start', stop', next'⟩ := h'
  exact ⟨placed, Nat.le_trans start start', Nat.le_trans stop stop', Nat.le_trans next next'⟩

theorem Leads.ready (h : c.Leads source c') (hc : c.Ready source least) : c'.Ready source least :=
  ⟨h.placed, Nat.le_trans hc.2 h.next⟩

/-- From the start of the token before this place to the last token. -/
theorem Leads.behind (hc : c.Placed source) (h : c.Leads source c') :
    Span.Within source ⟨c.previous.start, c'.previous.stop⟩ := by
  obtain ⟨placed, -, stop, -⟩ := h
  exact ⟨Nat.le_trans hc.previous.ordered stop, hc.previous.start, placed.previous.stop⟩

/-! ### Taking tokens -/

theorem Takes.leads (h : c.Takes source s c') : c.Leads source c' := h.1

theorem Takes.span (h : c.Takes source s c') : s.Within source := h.2.2.1

/-- What is taken is there for a reader that stops later. -/
theorem Takes.before (h : c.Takes source s c') (after : c'.Leads source c'') : c.Takes source s c'' := by
  obtain ⟨leads, last, span, start, stop⟩ := h
  have whole := leads.trans after
  obtain ⟨-, last', stop', -⟩ := after
  exact ⟨whole, Nat.le_trans last last', span, start, Nat.le_trans stop stop'⟩

/-- What is taken is there for a reader that begins earlier. -/
theorem Takes.after (h : c.Takes source s c') (before : c₀.Leads source c) : c₀.Takes source s c' := by
  obtain ⟨leads, last, span, start, stop⟩ := h
  exact ⟨before.trans leads, Nat.le_trans before.next last, span, Nat.le_trans before.next start, stop⟩

/-- A step takes the next token if it is not the end of input. -/
theorem Placed.advance {x : Lexeme} (h : c.Placed source) (hx : c.lexeme = x) (hinner : x.isEnd = false) :
    c.Takes source c.advance.previous c.advance := by
  obtain ⟨rest, previous, peak⟩ := c
  subst hx
  cases rest with
  | nil => cases hinner
  | cons t ts =>
    obtain ⟨⟨last, hlast, hend⟩, separate, within⟩ := h
    obtain ⟨behind, separate⟩ := List.pairwise_cons.mp separate
    have before : previous.stop ≤ t.span.start := behind _ (.head _)
    have ordered := (within _ (.head _)).ordered
    have token : t.span.Within source := within _ (.tail _ (.head _))
    have placed : Placed source ⟨ts, t.span, peak⟩ := by
      refine ⟨⟨last, ?_, hend⟩, separate, fun s hs => within s (.tail _ hs)⟩
      refine (List.mem_cons.mp hlast).resolve_left fun heq => ?_
      rw [heq] at hend
      rw [show t.lexeme.isEnd = false from hinner] at hend
      cases hend
    have leads : Leads source ⟨t :: ts, previous, peak⟩ ⟨ts, t.span, peak⟩ :=
      ⟨placed, Nat.le_trans ordered before, Nat.le_trans before token.ordered, Nat.le_trans token.ordered placed.next.2⟩
    exact ⟨leads, Nat.le_refl _, token, Nat.le_refl _, Nat.le_refl _⟩

theorem Ready.advance {x : Lexeme} (h : c.Ready source least) (hx : c.lexeme = x) (hinner : x.isEnd = false) :
    c.Takes source c.advance.previous c.advance ∧ c.advance.Ready source least :=
  have token := h.1.advance hx hinner
  ⟨token, token.leads.ready h⟩

/-- From the start of one range to the end of a later one. -/
theorem Takes.join (h : c.Takes source s c₁) (between : c₁.Leads source c') (h' : c'.Takes source t c'') :
    s.start ≤ t.start ∧ s.stop ≤ t.stop ∧ c.Takes source ⟨s.start, t.stop⟩ c'' := by
  obtain ⟨leads, last, span, start, stop⟩ := h.before between
  obtain ⟨leads', last', span', start', stop'⟩ := h'
  have later : s.stop ≤ t.start := Nat.le_trans stop (Nat.le_trans between.placed.next.2 start')
  have ordered : s.start ≤ t.start := Nat.le_trans span.ordered later
  have joined : Span.Within source ⟨s.start, t.stop⟩ :=
    ⟨Nat.le_trans ordered span'.ordered, span.start, span'.stop⟩
  have beyond : c.span.start ≤ c''.previous.start := Nat.le_trans leads.next last'
  exact ⟨ordered, Nat.le_trans later span'.ordered, leads.trans leads', beyond, joined, start, stop'⟩

theorem Takes.cover (h : c.Takes source s c₁) (between : c₁.Leads source c') (h' : c'.Takes source t c'') :
    c.Takes source (s.cover t) c'' := by
  obtain ⟨start, stop, joined⟩ := h.join between h'
  rw [Span.cover, Nat.min_eq_left start, Nat.max_eq_right stop]
  exact joined

/-- From the start of a range to the last token. -/
theorem Takes.extend (h : c.Takes source s c₁) (after : c₁.Leads source c') :
    c.Takes source ⟨s.start, c'.previous.stop⟩ c' := by
  obtain ⟨leads, last, span, start, stop⟩ := h.before after
  exact ⟨leads, last, ⟨Nat.le_trans span.ordered stop, span.start, leads.placed.previous.stop⟩, start, Nat.le_refl _⟩

/-- From the start of the token before this place to the end of a range behind it. -/
theorem Takes.behind (hc : c.Placed source) (h : c.Takes source s c') :
    Span.Within source ⟨c.previous.start, s.stop⟩ := by
  obtain ⟨-, -, span, start, -⟩ := h
  have ordered : c.previous.start ≤ s.start := Nat.le_trans hc.previous.ordered (Nat.le_trans hc.next.2 start)
  exact ⟨Nat.le_trans ordered span.ordered, hc.previous.start, span.stop⟩

/-! ### Reporting -/

/-- What comes next may be reported. -/
theorem Ready.blames {cause : SyntaxCause} (h : c.Ready source least) : Blames source least ⟨cause, c.span⟩ c :=
  ⟨h.1, h.1.next.1, h.2, Nat.le_refl _⟩

/-- The last token may be reported. -/
theorem Takes.blames {cause : SyntaxCause} (h : c.Takes source s c') (hc : c.Ready source least) :
    Blames source least ⟨cause, c'.previous⟩ c' := by
  obtain ⟨⟨placed, -⟩, last, -⟩ := h
  exact ⟨placed, placed.previous, Nat.le_trans hc.2 last, Nat.le_trans placed.previous.ordered placed.next.2⟩

/-- What was taken may be reported. -/
theorem Takes.blames_span {cause : SyntaxCause} (h : c.Takes source s c') (hc : c.Ready source least) :
    Blames source least ⟨cause, s⟩ c' := by
  obtain ⟨leads, -, span, start, stop⟩ := h
  have last : s.start ≤ c'.previous.stop := Nat.le_trans span.ordered stop
  exact ⟨leads.placed, span, Nat.le_trans hc.2 start, Nat.le_trans last leads.placed.next.2⟩

end
end Cursor

/-! ### What readers give -/

/-- An expression that was read between two places. -/
def Expr.Read (source : String) (c : Cursor) (e : Expr) (c' : Cursor) : Prop :=
  c.Takes source e.span c' ∧ e.Lies source

def Block.Read (source : String) (c : Cursor) (b : Block) (c' : Cursor) : Prop :=
  c.Takes source b.span c' ∧ b.Lies source

/-- A conditional that was read between two places, and its keyword before them. -/
def Branch.Read (source : String) (c : Cursor) (b : Branch) (c' : Cursor) : Prop :=
  c.Leads source c' ∧ b.span.start = c.previous.start ∧ b.span.stop ≤ c'.previous.stop ∧ b.Lies source

def Otherwise.Read (source : String) (c : Cursor) (o : Otherwise) (c' : Cursor) : Prop :=
  c.Leads source c' ∧ o.Lies source ∧ match o with
    | .nothing => True
    | .block b => c.Takes source b.span c'
    | .branch b => c.Takes source b.span c'

/-- A statement that was read behind its keyword. -/
def Stmt.Read (source : String) (c : Cursor) (s : Stmt) (c' : Cursor) : Prop := c.Leads source c' ∧ s.Lies source

/-- A statement or a tail that was read between two places. -/
def Level.Item.Read (source : String) (c : Cursor) (item : Item) (c' : Cursor) : Prop :=
  c.Leads source c' ∧ item.Lies source

/-- The keyword of a conditional and the rest of it. -/
theorem Branch.Read.takes {source : String} {c c' : Cursor} {b : Branch}
    (keyword : c.Takes source c.advance.previous c.advance) (h : b.Read source c.advance c') : c.Takes source b.span c' := by
  obtain ⟨leads, hstart, hstop, lies⟩ := h
  have start : b.span.start = c.span.start := hstart.trans (congrArg Span.start c.advance_previous)
  obtain ⟨whole, last, -⟩ := keyword.before leads
  exact ⟨whole, last, lies.span, Nat.le_of_eq start.symm, hstop⟩

theorem Branch.Read.lies {source : String} {c c' : Cursor} {b : Branch} (h : b.Read source c c') : b.Lies source :=
  h.2.2.2

open ScriptEngine.Tree.Parser

/-- What the readers of a level read and report is in its place. -/
structure Level.Places (l : Level) (source : String) : Prop where
  unary {braces : Bool} {c : Cursor} {least : Nat} (hc : c.Ready source least) :
    Comes (l.unary braces) c (Expr.Read source c) (Blames source least)
  block {braces : Bool} {c : Cursor} {least : Nat} (hc : c.Ready source least) :
    Comes (l.block braces) c (Block.Read source c) (Blames source least)
  branch {braces : Bool} {c : Cursor} {least : Nat} (hc : c.Ready source least) :
    Comes (l.branch braces) c (Branch.Read source c) (Blames source least)

namespace Level

theorem isEnd_of_binaryOp {x : Lexeme} {op : BinaryOp} (h : binaryOp? x = some op) : x.isEnd = false := by
  cases x with
  | endOfInput => cases h
  | _ => rfl

theorem isEnd_of_unaryOp {x : Lexeme} {op : UnaryOp} (h : unaryOp? x = some op) : x.isEnd = false := by
  cases x with
  | endOfInput => cases h
  | _ => rfl

section
variable {source : String} {l : Level} {braces : Bool} {c : Cursor} {least : Nat}

theorem places_climb (hl : l.Places source) (fuel least' : Nat) {c₀ : Cursor} {left : Expr} (hc : c₀.Ready source least)
    (hleft : left.Read source c₀ c) :
    Comes (l.climb braces fuel least' left) c (Expr.Read source c₀) (Blames source least) := by
  induction fuel generalizing least' left c₀ c with
  | zero => exact hleft
  | succ fuel ih =>
    refine comes_get ?_
    split
    · exact hleft
    · rename_i op hop
      refine comes_ite (fun _ => hleft) fun _ => comes_next (comes_openChain ?_)
      obtain ⟨operator, hc₁⟩ := (hleft.1.leads.ready hc).advance rfl (isEnd_of_binaryOp hop)
      refine comes_bind (hl.unary hc₁) fun first c₂ hfirst => ?_
      refine comes_bind (ih _ hc₁ hfirst) fun right c₃ hright => ?_
      have whole := hleft.1.cover operator.leads hright.1
      have node : (Expr.binary op left right (left.span.cover right.span)).Read source c₀ c₃ :=
        ⟨whole, hleft.2, hright.2, whole.span⟩
      exact comes_closeChain (comes_deepen (fun _ => ih _ hc node) (whole.blames hc))

theorem places_expression (hl : l.Places source) (hc : c.Ready source least) :
    Comes (l.expression braces) c (Expr.Read source c) (Blames source least) :=
  comes_openChain (comes_bind (hl.unary hc) fun _ _ hfirst => comes_get
    (comes_bind (places_climb hl _ _ hc hfirst) fun _ _ he => comes_closeChain he))

theorem places_items (hl : l.Places source) (close : Mark) (fuel : Nat) (hc : c.Ready source least) :
    Comes (l.items close fuel) c (fun es c' => c.Leads source c' ∧ Expr.LiesAll source es) (Blames source least) := by
  induction fuel generalizing c with
  | zero => exact ⟨hc.1.leads, trivial⟩
  | succ fuel ih =>
    refine comes_get (comes_ite (fun _ => ⟨hc.1.leads, trivial⟩) fun _ => ?_)
    refine comes_bind (places_expression hl hc) fun e c₁ he => comes_takeMark (fun hcomma => ?_) ?_
    · obtain ⟨comma, hc₂⟩ := (he.1.leads.ready hc).advance hcomma rfl
      refine comes_bind (ih hc₂) fun es c₃ hes => ?_
      exact ⟨he.1.leads.trans (comma.leads.trans hes.1), he.2, hes.2⟩
    · exact ⟨he.1.leads, he.2, trivial⟩

theorem places_closedItems (hl : l.Places source) (close : Mark) (hc : c.Ready source least) :
    Comes (l.closedItems close) c
      (fun r c' => c.Leads source c' ∧ Expr.LiesAll source r.1 ∧ r.2 = c'.previous.stop) (Blames source least) := by
  refine comes_get (comes_bind (places_items hl close _ hc) fun es c₁ hes => ?_)
  have hc₁ := hes.1.ready hc
  exact comes_expect (fun hclose => ⟨hes.1.trans (hc₁.advance hclose rfl).1.leads, hes.2, rfl⟩) hc₁.blames

theorem places_nameOrPath (hc : c.Ready source least) :
    Comes nameOrPath c (Expr.Read source c) (Blames source least) := by
  refine comes_ident (fun _ hname => ?_) hc.blames
  obtain ⟨name, hc₁⟩ := hc.advance hname rfl
  refine comes_takeMark (fun hcolons => ?_) ⟨name, name.span⟩
  obtain ⟨colons, hc₂⟩ := hc₁.advance hcolons rfl
  refine comes_ident (fun _ hmember => ?_) hc₂.blames
  have member := (hc₂.advance hmember rfl).1
  have whole := name.cover colons.leads member
  exact ⟨whole, name.span, member.span, whole.span⟩

theorem places_primary (hl : l.Places source) (hc : c.Ready source least) :
    Comes (l.primary braces) c (Expr.Read source c) (Blames source least) := by
  have literal {value : Literal} {x : Lexeme} (hx : c.lexeme = x) (hinner : x.isEnd = false) :
      Comes (next >>= fun span => pure (Expr.literal value span)) c (Expr.Read source c) (Blames source least) :=
    have token := hc.1.advance hx hinner
    comes_next ⟨token, token.span⟩
  refine comes_takeKeyword (fun hcond => ?_) ?_
  · obtain ⟨keyword, hc₁⟩ := hc.advance hcond rfl
    exact comes_bind (hl.branch hc₁) fun b c₂ hb => ⟨hb.takes keyword, hb.lies⟩
  refine comes_get (comes_ite (fun _ => comes_bind (hl.block hc) fun b c₁ hb => hb) fun _ => comes_get ?_)
  split
  case h_1 => exact places_nameOrPath hc
  case h_7 hopen =>
    obtain ⟨paren, hc₁⟩ := hc.advance hopen rfl
    refine comes_next (comes_bind (places_expression hl hc₁) fun e c₂ he => ?_)
    have hc₂ := he.1.leads.ready hc₁
    exact comes_expect (fun hclose => ⟨(he.1.after paren.leads).before (hc₂.advance hclose rfl).1.leads, he.2⟩) hc₂.blames
  case h_8 hopen =>
    obtain ⟨bracket, hc₁⟩ := hc.advance hopen rfl
    refine comes_next (comes_bind (places_closedItems hl _ hc₁) fun r c₂ hr => ?_)
    obtain ⟨es, stop⟩ := r
    obtain ⟨leads, lies, rfl⟩ := hr
    have whole := bracket.extend leads
    exact ⟨whole, lies, whole.span⟩
  case h_9 => exact hc.blames
  all_goals exact literal ‹_› rfl

theorem places_suffixes (hl : l.Places source) (fuel : Nat) {c₀ : Cursor} {e : Expr} (hc : c₀.Ready source least)
    (he : e.Read source c₀ c) :
    Comes (l.suffixes braces fuel e) c (Expr.Read source c₀) (Blames source least) := by
  induction fuel generalizing e c with
  | zero => exact he
  | succ fuel ih =>
    have hc₁ := he.1.leads.ready hc
    refine comes_takeMark (fun hopen => ?_) (comes_takeMark (fun hopen => ?_) he)
    · obtain ⟨paren, hc₂⟩ := hc₁.advance hopen rfl
      refine comes_bind (places_closedItems hl _ hc₂) fun r c₃ hr => ?_
      obtain ⟨args, stop⟩ := r
      obtain ⟨leads, lies, rfl⟩ := hr
      have whole := he.1.extend (paren.leads.trans leads)
      have node : (Expr.call e args ⟨e.span.start, c₃.previous.stop⟩).Read source c₀ c₃ := ⟨whole, he.2, lies, whole.span⟩
      exact comes_deepen (fun _ => ih node) (whole.blames hc)
    · obtain ⟨bracket, hc₂⟩ := hc₁.advance hopen rfl
      refine comes_bind (places_expression hl hc₂) fun position c₃ hposition => ?_
      have hc₃ := hposition.1.leads.ready hc₂
      refine comes_expect (fun hclose => ?_) hc₃.blames
      have closed := (hc₃.advance hclose rfl).1
      have whole := he.1.extend (bracket.leads.trans (hposition.1.leads.trans closed.leads))
      have node : (Expr.index e position ⟨e.span.start, c₃.advance.previous.stop⟩).Read source c₀ c₃.advance :=
        ⟨whole, he.2, hposition.2, whole.span, rfl⟩
      exact comes_deepen (fun _ => ih node) (whole.blames hc)

theorem places_operand (hl : l.Places source) (hc : c.Ready source least) :
    Comes (l.operand braces) c (Expr.Read source c) (Blames source least) :=
  comes_openChain (comes_bind (places_primary hl hc) fun _ _ hfirst => comes_get
    (comes_bind (places_suffixes hl _ hc hfirst) fun _ _ he => comes_closeChain he))

theorem places_unaryBody (hl : l.Places source) (hc : c.Ready source least) :
    Comes (l.unaryBody braces) c (Expr.Read source c) (Blames source least) := by
  refine comes_get ?_
  split
  · rename_i op hop
    obtain ⟨operator, hc₁⟩ := hc.advance rfl (isEnd_of_unaryOp hop)
    refine comes_next (comes_bind (hl.unary hc₁) fun e c₂ he => ?_)
    obtain ⟨-, -, whole⟩ := operator.join hc₁.1.leads he.1
    refine ⟨?_, applyUnary_lies op he.2 whole.span⟩
    rw [applyUnary_span]
    exact whole
  · exact places_operand hl hc

theorem places_otherwise (hl : l.Places source) (hc : c.Ready source least) :
    Comes (l.otherwise braces) c (Otherwise.Read source c) (Blames source least) := by
  refine comes_takeKeyword (fun helse => ?_) ⟨hc.1.leads, trivial, trivial⟩
  obtain ⟨keyword, hc₁⟩ := hc.advance helse rfl
  refine comes_takeKeyword (fun hcond => ?_) ?_
  · obtain ⟨keyword', hc₂⟩ := hc₁.advance hcond rfl
    refine comes_bind (hl.branch hc₂) fun b c₃ hb => ?_
    have taken := (hb.takes keyword').after keyword.leads
    exact ⟨taken.leads, hb.lies, taken⟩
  · refine comes_bind (hl.block hc₁) fun b c₂ hb => ?_
    have taken := hb.1.after keyword.leads
    exact ⟨taken.leads, hb.2, taken⟩

theorem places_branchBody (hl : l.Places source) (hc : c.Ready source least) :
    Comes (l.branchBody braces) c (Branch.Read source c) (Blames source least) := by
  refine comes_get (comes_bind (places_expression hl hc) fun condition c₁ hcondition => ?_)
  have hc₁ := hcondition.1.leads.ready hc
  refine comes_bind (hl.block hc₁) fun body c₂ hbody => ?_
  have hc₂ := hbody.1.leads.ready hc₁
  refine comes_bind (places_otherwise hl hc₂) fun o c₃ ho => ?_
  obtain ⟨leads, lies, hlast⟩ := ho
  have before := hcondition.1.leads.trans hbody.1.leads
  -- The conditional ends with the last of its blocks.
  have ends {s : Span} (hs : c.Takes source s c₃) :
      (Branch.mk condition body o ⟨c.previous.start, s.stop⟩).Read source c c₃ := by
    have behind := hs.behind hc.1
    obtain ⟨leads, -, -, -, stop⟩ := hs
    exact ⟨leads, rfl, stop, hcondition.2, hbody.2, lies, behind⟩
  cases o with
  | nothing => exact ends ((hbody.1.after hcondition.1.leads).before leads)
  | block b => exact ends (hlast.after before)
  | branch b => exact ends (hlast.after before)

/-! ### Statements -/

theorem places_bindStmt (hl : l.Places source) (hc : c.Ready source least) :
    Comes (l.bindStmt braces c.previous.start) c (Stmt.Read source c) (Blames source least) := by
  have named {mutable : Bool} {c₁ : Cursor} (before : c.Leads source c₁) : Comes (do
      let name ← ident .expectedBindingName
      if ← takeMark .eq then
        let value ← l.expression braces
        let _ ← expect .semicolon
        return Stmt.bind name mutable (some value) ⟨c.previous.start, value.span.stop⟩
      else
        let _ ← expect .semicolon
        return Stmt.bind name mutable none ⟨c.previous.start, name.span.stop⟩) c₁
      (Stmt.Read source c) (Blames source least) := by
    have hc₁ := before.ready hc
    refine comes_ident (fun _ hname => ?_) hc₁.blames
    obtain ⟨name, hc₂⟩ := hc₁.advance hname rfl
    refine comes_takeMark (fun heq => ?_) (comes_expect (fun hsemicolon => ?_) hc₂.blames)
    · obtain ⟨equals, hc₃⟩ := hc₂.advance heq rfl
      refine comes_bind (places_expression hl hc₃) fun value c₄ hvalue => ?_
      have taken := hvalue.1.after (before.trans (name.leads.trans equals.leads))
      refine comes_expect (fun hsemicolon => ?_) (taken.leads.ready hc).blames
      have last := ((taken.leads.ready hc).advance hsemicolon rfl).1
      exact ⟨taken.leads.trans last.leads, name.span, hvalue.2, taken.behind hc.1⟩
    · have last := (hc₂.advance hsemicolon rfl).1
      have taken := name.after before
      exact ⟨taken.leads.trans last.leads, name.span, trivial, taken.behind hc.1⟩
  exact comes_takeKeyword (fun hmut => named (hc.advance hmut rfl).1.leads) (named hc.1.leads)

theorem places_params (fuel : Nat) (hc : c.Ready source least) :
    Comes (params fuel) c (fun ps c' => c.Leads source c' ∧ ∀ p ∈ ps, p.span.Within source) (Blames source least) := by
  induction fuel generalizing c with
  | zero => exact ⟨hc.1.leads, fun _ h => (nomatch h)⟩
  | succ fuel ih =>
    refine comes_ident (fun name hname => ?_) hc.blames
    obtain ⟨param, hc₁⟩ := hc.advance hname rfl
    have only : ∀ p ∈ [(⟨name, c.advance.previous⟩ : Ident)], p.span.Within source :=
      List.forall_mem_singleton.mpr param.span
    refine comes_takeMark (fun hcomma => ?_) ⟨param.leads, only⟩
    obtain ⟨comma, hc₂⟩ := hc₁.advance hcomma rfl
    have before := param.leads.trans comma.leads
    refine comes_get (comes_ite (fun _ => ⟨before, only⟩) fun _ => ?_)
    refine comes_bind (ih hc₂) fun ps c₃ hps => ?_
    exact ⟨before.trans hps.1, List.forall_mem_cons.mpr ⟨param.span, hps.2⟩⟩

theorem places_funcStmt (hl : l.Places source) (hc : c.Ready source least) :
    Comes (l.funcStmt braces c.previous.start) c (Stmt.Read source c) (Blames source least) := by
  have body {name : Ident} {names : List Ident} {c₁ : Cursor} (before : c.Leads source c₁)
      (hname : name.span.Within source) (hnames : ∀ p ∈ names, p.span.Within source) : Comes (do
      let _ ← expect .closeParen
      let body ← l.block braces
      return Stmt.func name names body ⟨c.previous.start, body.span.stop⟩) c₁
      (Stmt.Read source c) (Blames source least) := by
    have hc₁ := before.ready hc
    refine comes_expect (fun hclose => ?_) hc₁.blames
    obtain ⟨paren, hc₂⟩ := hc₁.advance hclose rfl
    refine comes_bind (hl.block hc₂) fun body c₃ hbody => ?_
    have taken := hbody.1.after (before.trans paren.leads)
    exact ⟨taken.leads, hname, hnames, hbody.2, taken.behind hc.1⟩
  refine comes_ident (fun _ hname => ?_) hc.blames
  obtain ⟨name, hc₁⟩ := hc.advance hname rfl
  refine comes_expect (fun hopen => comes_get ?_) hc₁.blames
  obtain ⟨paren, hc₂⟩ := hc₁.advance hopen rfl
  have before := name.leads.trans paren.leads
  refine comes_ite (fun _ => body before name.span fun _ h => (nomatch h)) fun _ => comes_get ?_
  exact comes_bind (places_params _ hc₂) fun _ _ hnames => body (before.trans hnames.1) name.span hnames.2

theorem places_retStmt (hl : l.Places source) (hc : c.Ready source least) :
    Comes (l.retStmt braces c.previous.start) c (Stmt.Read source c) (Blames source least) := by
  refine comes_get (comes_ite (fun hsemicolon => ?_) fun _ => ?_)
  · have last := (hc.advance (Cursor.lexeme_of_atMark hsemicolon) rfl).1
    exact comes_next ⟨last.leads, trivial, last.leads.behind hc.1⟩
  · refine comes_bind (places_expression hl hc) fun value c₁ hvalue => ?_
    have hc₁ := hvalue.1.leads.ready hc
    refine comes_expect (fun hsemicolon => ?_) hc₁.blames
    have leads := hvalue.1.leads.trans (hc₁.advance hsemicolon rfl).1.leads
    exact ⟨leads, hvalue.2, leads.behind hc.1⟩

theorem places_loopStmt (hl : l.Places source) (hc : c.Ready source least) :
    Comes (l.loopStmt braces c.previous.start) c (Stmt.Read source c) (Blames source least) := by
  refine comes_bind (places_expression hl hc) fun condition c₁ hcondition => ?_
  refine comes_bind (hl.block (hcondition.1.leads.ready hc)) fun body c₂ hbody => ?_
  have taken := hbody.1.after hcondition.1.leads
  exact ⟨taken.leads, hcondition.2, hbody.2, taken.behind hc.1⟩

/-- An assignment behind its target: the target begins where the assignment begins, and so does the base of an element. -/
theorem places_assignStmt (hl : l.Places source) {c₀ : Cursor} {target : Expr} (hc : c₀.Ready source least)
    (htarget : c₀.Takes source target.span c) (lies : target.Lies source) :
    Comes (l.assignStmt braces target) c (Stmt.Read source c₀) (Blames source least) := by
  have assigned {s : Expr → Nat → Stmt} (hs : ∀ value c', c.Leads source c' → value.Lies source →
      (s value c'.previous.stop).Lies source) : Comes (do
      let value ← l.expression braces
      let last ← expect .semicolon
      return s value last.stop) c (Stmt.Read source c₀) (Blames source least) := by
    have hc₁ := htarget.leads.ready hc
    refine comes_bind (places_expression hl hc₁) fun value c₂ hvalue => ?_
    have hc₂ := hvalue.1.leads.ready hc₁
    refine comes_expect (fun hsemicolon => ?_) hc₂.blames
    have leads := hvalue.1.leads.trans (hc₂.advance hsemicolon rfl).1.leads
    exact ⟨htarget.leads.trans leads, hs value _ leads hvalue.2⟩
  unfold assignStmt
  split
  · rename_i name
    have assign (value : Expr) (c' : Cursor) (leads : c.Leads source c') (hvalue : value.Lies source) :
        (Stmt.assign name value ⟨name.span.start, c'.previous.stop⟩).Lies source :=
      ⟨lies, hvalue, (htarget.extend leads).span⟩
    exact assigned (s := fun value stop => .assign name value ⟨name.span.start, stop⟩) assign
  · rename_i base position span
    obtain ⟨hbase, hposition, _, hstart⟩ := lies
    have setIndex (value : Expr) (c' : Cursor) (leads : c.Leads source c') (hvalue : value.Lies source) :
        (Stmt.setIndex base position value ⟨base.span.start, c'.previous.stop⟩).Lies source :=
      ⟨hbase, hposition, hvalue, hstart ▸ (htarget.extend leads).span⟩
    exact assigned (s := fun value stop => .setIndex base position value ⟨base.span.start, stop⟩) setIndex
  · exact htarget.blames_span hc

theorem places_exprItem (hl : l.Places source) (hc : c.Ready source least) :
    Comes (l.exprItem braces) c (Item.Read source c) (Blames source least) := by
  refine comes_bind (places_expression hl hc) fun e c₁ he => ?_
  have hc₁ := he.1.leads.ready hc
  refine comes_takeMark (fun heq => ?_) (comes_takeMark (fun hsemicolon => ?_) ?_)
  · have target := he.1.before (hc₁.advance heq rfl).1.leads
    exact comes_bind (places_assignStmt hl hc target he.2) fun s c₂ hs => hs
  · exact ⟨he.1.leads.trans (hc₁.advance hsemicolon rfl).1.leads, he.2⟩
  · exact comes_get (comes_ite (fun _ => ⟨he.1.leads, he.2⟩) fun _ => ⟨he.1.leads, he.2⟩)

theorem places_item (hl : l.Places source) (hc : c.Ready source least) :
    Comes (l.item braces) c (Item.Read source c) (Blames source least) := by
  have stmt {p : Parser Stmt} {x : Lexeme} (hx : c.lexeme = x) (hinner : x.isEnd = false)
      (hp : c.advance.Ready source least → Comes p c.advance (Stmt.Read source c.advance) (Blames source least)) :
      Comes (p >>= fun s => pure (Item.stmt s)) c.advance (Item.Read source c) (Blames source least) := by
    obtain ⟨keyword, hc₁⟩ := hc.advance hx hinner
    exact comes_bind (hp hc₁) fun _ _ hs => ⟨keyword.leads.trans hs.1, hs.2⟩
  have control {s : Span → Stmt} {x : Lexeme} (hx : c.lexeme = x) (hinner : x.isEnd = false)
      (hs : ∀ span, span.Within source → (s span).Lies source) :
      Comes (expect .semicolon >>= fun _ => pure (Item.stmt (s c.advance.previous))) c.advance (Item.Read source c)
        (Blames source least) := by
    obtain ⟨keyword, hc₁⟩ := hc.advance hx hinner
    refine comes_expect (fun hsemicolon => ?_) hc₁.blames
    exact ⟨keyword.leads.trans (hc₁.advance hsemicolon rfl).1.leads, hs _ keyword.span⟩
  refine comes_get ?_
  split
  · exact comes_next (stmt ‹_› rfl (places_bindStmt hl))
  · exact comes_next (stmt ‹_› rfl (places_funcStmt hl))
  · exact comes_next (stmt ‹_› rfl (places_retStmt hl))
  · exact comes_next (stmt ‹_› rfl (places_loopStmt hl))
  · exact comes_next (control ‹_› rfl fun _ h => h)
  · exact comes_next (control ‹_› rfl fun _ h => h)
  · exact places_exprItem hl hc

theorem places_blockItems (hl : l.Places source) (fuel : Nat) (hc : c.Ready source least) :
    Comes (l.blockItems braces fuel) c
      (fun r c' => c.Leads source c' ∧ Stmt.LiesAll source r.1 ∧ Expr.LiesIfAny source r.2) (Blames source least) := by
  induction fuel generalizing c with
  | zero => exact ⟨hc.1.leads, trivial, trivial⟩
  | succ fuel ih =>
    refine comes_get (comes_ite (fun _ => ⟨hc.1.leads, trivial, trivial⟩) fun _ => comes_takeMark (fun hsemicolon => ?_) ?_)
    · obtain ⟨semicolon, hc₁⟩ := hc.advance hsemicolon rfl
      exact (ih hc₁).imp (fun _ _ hr => ⟨semicolon.leads.trans hr.1, hr.2⟩) fun _ _ => id
    · refine comes_bind (places_item hl hc) fun item c₁ hitem => ?_
      cases item with
      | tail e => exact ⟨hitem.1, trivial, hitem.2⟩
      | stmt s =>
        refine comes_bind (ih (hitem.1.ready hc)) fun r c₂ hr => ?_
        exact ⟨hitem.1.trans hr.1, ⟨hitem.2, hr.2.1⟩, hr.2.2⟩

theorem places_blockBody (hl : l.Places source) (hc : c.Ready source least) :
    Comes (l.blockBody braces) c (Block.Read source c) (Blames source least) := by
  refine comes_expect (fun hopen => comes_get ?_) hc.blames
  obtain ⟨brace, hc₁⟩ := hc.advance hopen rfl
  refine comes_bind (places_blockItems hl _ hc₁) fun r c₂ hr => ?_
  have hc₂ := hr.1.ready hc₁
  refine comes_expect (fun hclose => ?_) hc₂.blames
  have whole := brace.extend (hr.1.trans (hc₂.advance hclose rfl).1.leads)
  exact ⟨whole, hr.2.1, hr.2.2, whole.span⟩

/-! ### All levels -/

theorem places_floor : floor.Places source where
  unary hc := hc.blames
  block hc := hc.blames
  branch hc := hc.blames

theorem places_around (hl : l.Places source) : l.around.Places source where
  unary hc := comes_enter (places_unaryBody hl hc)
  block hc := comes_enter (places_blockBody hl hc)
  branch hc := comes_enter (places_branchBody hl hc)

theorem places_withRoom (room : Nat) : (withRoom room).Places source := by
  induction room with
  | zero => exact places_floor
  | succ room ih => exact places_around ih

end
end Level

/-! ### Fragments -/

section
variable {source : String}

/-- Skipping the rest of a statement only goes on. -/
theorem Cursor.Placed.recover {rest : List Token} {previous : Span} (peak depth : Nat)
    (h : Cursor.Placed source ⟨rest, previous, peak⟩) :
    Cursor.Leads source ⟨rest, previous, peak⟩ (Cursor.recover rest previous depth) := by
  induction rest generalizing previous depth with
  | nil => exact h.leads
  | cons t ts ih =>
    have step {x : Lexeme} (hx : t.lexeme = x) (hinner : x.isEnd = false) :
        Cursor.Leads source ⟨t :: ts, previous, peak⟩ ⟨ts, t.span, peak⟩ := (h.advance hx hinner).leads
    have on {x : Lexeme} (depth : Nat) (hx : t.lexeme = x) (hinner : x.isEnd = false) :
        Cursor.Leads source ⟨t :: ts, previous, peak⟩ (Cursor.recover ts t.span depth) :=
      (step hx hinner).trans (ih depth (step hx hinner).placed)
    unfold Cursor.recover
    split
    case h_1 => exact h.leads
    case h_2 hx => exact on _ hx rfl
    case h_3 hx | h_4 hx =>
      split
      · exact step hx rfl
      · exact on _ hx rfl
    case h_9 hend _ _ _ _ _ _ _ =>
      cases hx : t.lexeme with
      | endOfInput => exact (hend hx).elim
      | _ => exact on _ hx rfl
    all_goals
      split
      · exact h.leads
      · exact on _ ‹_› rfl

theorem Cursor.Placed.skipStatement {c : Cursor} (h : c.Placed source) : c.Leads source c.skipStatement :=
  Cursor.Placed.recover c.peak 0 h

/-- What a reading reports is in the text, here or later, and in the order of the text, and so are all places in what it
    gives. -/
structure Reading.Lies (source : String) (least : Nat) (r : Reading) : Prop where
  errors : ∀ e ∈ r.errors, e.span.Within source ∧ least ≤ e.span.start
  sorted : r.errors.Pairwise fun a b => a.span.start ≤ b.span.start
  stmts : Stmt.LiesAll source r.stmts
  tail : Expr.LiesIfAny source r.tail

namespace Reading

variable {least least' : Nat} {r : Reading}

theorem Lies.mono (h : r.Lies source least') (hle : least ≤ least') : r.Lies source least :=
  { h with errors := fun e he => ⟨(h.errors e he).1, Nat.le_trans hle (h.errors e he).2⟩ }

theorem lies_nothing {stop : Nat} : Lies source least ⟨[], none, [], stop⟩ :=
  ⟨fun _ h => (nomatch h), .nil, trivial, trivial⟩

/-- An error that stands before the later ones. -/
theorem Lies.addError {e : SyntaxError} (h : r.Lies source least') (within : e.span.Within source)
    (hleast : least ≤ e.span.start) (hle : e.span.start ≤ least') : (r.addError e).Lies source least := by
  have later (e' : SyntaxError) (he' : e' ∈ r.errors) : e.span.start ≤ e'.span.start :=
    Nat.le_trans hle (h.errors e' he').2
  have rest (e' : SyntaxError) (he' : e' ∈ r.errors) : e'.span.Within source ∧ least ≤ e'.span.start :=
    ⟨(h.errors e' he').1, Nat.le_trans hleast (later e' he')⟩
  exact { h with
    errors := List.forall_mem_cons.mpr ⟨⟨within, hleast⟩, rest⟩
    sorted := List.pairwise_cons.mpr ⟨later, h.sorted⟩ }

theorem ofCursor_lies (fuel : Nat) {c : Cursor} (hc : c.Placed source) : (ofCursor fuel c).Lies source c.span.start := by
  induction fuel generalizing c with
  | zero => exact lies_nothing
  | succ fuel ih =>
    have onward {c' : Cursor} (leads : c.Leads source c') : (ofCursor fuel c').Lies source c.span.start :=
      (ih leads.placed).mono leads.next
    have failed {e : SyntaxError} {after : Cursor} (blames : Blames source c.span.start e after) :
        ((ofCursor fuel after.skipStatement).addError e).Lies source c.span.start := by
      obtain ⟨placed, within, least, most⟩ := blames
      have skipped := placed.skipStatement
      exact (ih skipped.placed).addError within least (Nat.le_trans most skipped.next)
    have here : c.Ready source c.span.start := ⟨hc, Nat.le_refl _⟩
    unfold ofCursor
    split
    · exact lies_nothing
    split
    · exact onward (hc.advance (Cursor.lexeme_of_atMark ‹_›) rfl).leads
    have hitem : Comes (Level.top.item true) { c with peak := 0 } (Level.Item.Read source c)
        (Blames source c.span.start) :=
      Level.places_item (Level.places_withRoom _) here
    split
    · obtain ⟨leads, lies⟩ := hitem.ok ‹_›
      exact { onward leads with stmts := ⟨lies, (onward leads).stmts⟩ }
    · obtain ⟨leads, lies⟩ := hitem.ok ‹_›
      split
      · exact { onward leads with tail := lies }
      · exact failed (leads.ready here).blames
    · exact failed (hitem.error ‹_›)

end Reading

/-- The tokens of a text are in their places before any is read. -/
theorem Cursor.placed_tokens {tokens : List Token} (h : Lexer.tokenize source.toList = .ok tokens) :
    Cursor.Placed source ⟨tokens, ⟨0, 0⟩, 0⟩ := by
  obtain ⟨separate, within⟩ := Lexer.tokenize_separate h
  obtain ⟨front, last, rfl, hlast, -⟩ := Lexer.tokenize_isEnd h
  have first : Span.Within source ⟨0, 0⟩ := ⟨Nat.le_refl _, String.Pos.Raw.isValid_zero, String.Pos.Raw.isValid_zero⟩
  refine ⟨⟨last, List.mem_append_right _ (.head _), by rw [hlast]; rfl⟩, ?_, List.forall_mem_cons.mpr ⟨first, within⟩⟩
  exact List.pairwise_cons.mpr ⟨fun _ _ => Nat.zero_le _, separate⟩

/-- All places in a fragment that can be read are in the text. -/
theorem Fragment.parse_lies {f : Fragment} (h : parse source.toList = .ok f) :
    Stmt.LiesAll source f.stmts ∧ Expr.LiesIfAny source f.tail := by
  unfold parse at h
  split at h
  · rename_i tokens htokens
    simp only [ofTokens] at h
    split at h
    · cases h
      have reading := Reading.ofCursor_lies tokens.length (Cursor.placed_tokens htokens)
      exact ⟨reading.stmts, reading.tail⟩
    · cases h
  · cases h

/-- Errors are reported in the text and in its order. -/
theorem Fragment.parse_errors {errors : List SyntaxError} (h : parse source.toList = .error errors) :
    errors.Pairwise (fun a b => a.span.start ≤ b.span.start) ∧ ∀ e ∈ errors, e.span.Within source := by
  unfold parse at h
  split at h
  · rename_i tokens htokens
    simp only [ofTokens] at h
    split at h
    · cases h
    · cases h
      have reading := Reading.ofCursor_lies tokens.length (Cursor.placed_tokens htokens)
      exact ⟨reading.sorted, fun e he => (reading.errors e he).1⟩
  · rename_i lexical hlexical
    cases h
    obtain ⟨sorted, within⟩ := Lexer.tokenize_errors hlexical
    rw [List.pairwise_map] at sorted
    refine ⟨List.pairwise_map.mpr sorted, fun e he => ?_⟩
    obtain ⟨e', he', rfl⟩ := List.mem_map.mp he
    exact within _ (List.mem_map_of_mem he')

end

end ScriptEngine.Tree
