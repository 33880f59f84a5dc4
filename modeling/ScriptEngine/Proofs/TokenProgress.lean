import ScriptEngine.Proofs.ReaderOutcomes

/-! Readers go on from token to token. From the place where it began to the one where it stops a reader passes tokens of
    which none is the end of input, whether it succeeds or not (`Cursor.Passes`), and if it succeeds then at least one
    (`Cursor.Consumes`); only what may be empty, such as the operators behind an operand, may take none. -/

namespace ScriptEngine

/-- A statement may begin with this keyword, so it is not skipped. -/
def Lexeme.opensStmt : Lexeme → Bool
  | .keyword .bind => true
  | .keyword .func => true
  | .keyword .loop => true
  | .keyword .ret => true
  | _ => false

namespace Tree

/-! ### Places one after the other -/

namespace Cursor

/-- From this place to that one lie tokens of which none is the end of input. -/
def Passes (c c' : Cursor) : Prop := ∃ used, c.rest = used ++ c'.rest ∧ ∀ t ∈ used, t.lexeme.isEnd = false

/-- From this place to that one lies at least one token, and none is the end of input. -/
def Consumes (c c' : Cursor) : Prop :=
  ∃ used, used ≠ [] ∧ c.rest = used ++ c'.rest ∧ ∀ t ∈ used, t.lexeme.isEnd = false

section
variable {c c' c'' : Cursor} {x : Lexeme}

theorem passes_refl (c : Cursor) : c.Passes c := ⟨[], rfl, fun _ h => (nomatch h)⟩

theorem Passes.trans (h : c.Passes c') (h' : c'.Passes c'') : c.Passes c'' := by
  obtain ⟨used, hrest, inner⟩ := h
  obtain ⟨used', hrest', inner'⟩ := h'
  refine ⟨used ++ used', by rw [hrest, hrest', List.append_assoc], fun t ht => ?_⟩
  exact (List.mem_append.mp ht).elim (inner t) (inner' t)

theorem Consumes.passes (h : c.Consumes c') : c.Passes c' := by
  obtain ⟨used, -, h⟩ := h
  exact ⟨used, h⟩

theorem Consumes.trans (h : c.Consumes c') (h' : c'.Passes c'') : c.Consumes c'' := by
  obtain ⟨used, hused, hrest, inner⟩ := h
  obtain ⟨used', hrest', inner'⟩ := h'
  refine ⟨used ++ used', by simp [hused], by rw [hrest, hrest', List.append_assoc], fun t ht => ?_⟩
  exact (List.mem_append.mp ht).elim (inner t) (inner' t)

/-- Tokens that were passed are fewer than before, unless the place is the same. -/
theorem Passes.consumes (h : c.Passes c') (hrest : c'.rest ≠ c.rest) : c.Consumes c' := by
  obtain ⟨used, hused, inner⟩ := h
  refine ⟨used, fun hnil => hrest ?_, hused, inner⟩
  rw [hused, hnil, List.nil_append]

theorem Passes.then (h : c.Passes c') (h' : c'.Consumes c'') : c.Consumes c'' := by
  refine (h.trans h'.passes).consumes fun hrest => ?_
  obtain ⟨used, hused, -⟩ := h
  obtain ⟨used', hne, hused', -⟩ := h'
  have lengths := congrArg List.length hused
  rw [hused', List.length_append, List.length_append, ← hrest] at lengths
  exact hne (List.eq_nil_of_length_eq_zero (by omega))

theorem Consumes.length_lt (h : c.Consumes c') : c'.rest.length < c.rest.length := by
  obtain ⟨used, hused, hrest, -⟩ := h
  rw [hrest, List.length_append]
  have := List.length_pos_iff.mpr hused
  omega

theorem consumes_advance (hx : c.lexeme = x) (hinner : x.isEnd = false) : c.Consumes c.advance := by
  obtain ⟨rest, previous, peak⟩ := c
  subst hx
  cases rest with
  | nil => cases hinner
  | cons t ts =>
    refine ⟨[t], List.cons_ne_nil _ _, rfl, fun t' ht => ?_⟩
    rw [List.mem_singleton.mp ht]
    exact hinner

end
end Cursor

theorem Level.inner_of_binaryOp {x : Lexeme} {op : BinaryOp} (h : binaryOp? x = some op) : x.isEnd = false := by
  cases x with
  | endOfInput => cases h
  | _ => rfl

theorem Level.inner_of_unaryOp {x : Lexeme} {op : UnaryOp} (h : unaryOp? x = some op) : x.isEnd = false := by
  cases x with
  | endOfInput => cases h
  | _ => rfl

/-! ### Readers -/

namespace Parser

/-- Wherever a reader begins, it passes tokens, whether it succeeds or not. -/
def Passes {α : Type} (p : Parser α) : Prop :=
  ∀ c, Comes p c (fun _ c' => c.Passes c') fun _ c' => c.Passes c'

/-- Wherever a reader begins, it passes tokens, and if it succeeds at least one. -/
def Consumes {α : Type} (p : Parser α) : Prop :=
  ∀ c, Comes p c (fun _ c' => c.Consumes c') fun _ c' => c.Passes c'

section
variable {α β : Type} {p q : Parser α} {f : α → Parser β} {c : Cursor}

theorem Consumes.passes (hp : Consumes p) : Passes p := fun c => (hp c).imp (fun _ _ => Cursor.Consumes.passes) fun _ _ => id

theorem passes_pure {a : α} : Passes (pure a) := fun c => c.passes_refl

theorem consumes_fail {cause : SyntaxCause} {span : Span} : Consumes (fail cause span : Parser α) := Cursor.passes_refl

theorem consumes_failHere {cause : SyntaxCause} : Consumes (failHere cause : Parser α) := Cursor.passes_refl

theorem passes_bind (hp : Passes p) (hf : ∀ a, Passes (f a)) : Passes (p >>= f) := fun c => by
  have first : Comes p c (fun _ c' => c.Passes c') fun _ c' => c.Passes c' := hp c
  exact comes_bind first fun a c' before => (hf a c').imp (fun _ _ => before.trans) fun _ _ => before.trans

theorem consumes_bind (hp : Consumes p) (hf : ∀ a, Passes (f a)) : Consumes (p >>= f) := fun c =>
  comes_bind (hp c) fun a c' before => (hf a c').imp (fun _ _ => before.trans) fun _ _ => before.passes.trans

/-- What may take nothing, and then what takes something. -/
theorem consumes_after (hp : Passes p) (hf : ∀ a, Consumes (f a)) : Consumes (p >>= f) := fun c =>
  comes_bind (hp c) fun a c' before => (hf a c').imp (fun _ _ => before.then) fun _ _ => before.trans

theorem passes_ite {b : Prop} [Decidable b] (hp : Passes p) (hq : Passes q) : Passes (if b then p else q) := fun c =>
  comes_ite (fun _ => hp c) fun _ => hq c

theorem consumes_ite {b : Prop} [Decidable b] (hp : Consumes p) (hq : Consumes q) : Consumes (if b then p else q) :=
  fun c => comes_ite (fun _ => hp c) fun _ => hq c

theorem passes_get : Passes (get : Parser Cursor) := fun c => c.passes_refl

/-- A token that is known not to be the end of input is taken. -/
theorem comes_next_inner {f : Span → Parser β} {x : Lexeme} (hx : c.lexeme = x) (hinner : x.isEnd = false)
    (hf : ∀ span, Passes (f span)) :
    Comes (next >>= f) c (fun _ c' => c.Consumes c') fun _ c' => c.Passes c' := by
  have taken := Cursor.consumes_advance hx hinner
  exact comes_next ((hf _ c.advance).imp (fun _ _ => taken.trans) fun _ _ => taken.passes.trans)

theorem passes_takeMark (m : Mark) : Passes (takeMark m) := fun c =>
  comes_get (comes_ite (fun h => (Cursor.consumes_advance (Cursor.lexeme_of_atMark h) rfl).passes) fun _ => c.passes_refl)

theorem passes_takeKeyword (k : Keyword) : Passes (takeKeyword k) := fun c =>
  comes_get (comes_ite (fun h => (Cursor.consumes_advance (Cursor.lexeme_of_atKeyword h) rfl).passes) fun _ => c.passes_refl)

theorem consumes_expect (m : Mark) : Consumes (expect m) := fun c =>
  comes_get (comes_ite (fun h => Cursor.consumes_advance (Cursor.lexeme_of_atMark h) rfl) fun _ => c.passes_refl)

theorem consumes_ident (missing : SyntaxCause) : Consumes (ident missing) := fun c => by
  refine comes_get ?_
  split
  · exact comes_next_inner ‹_› rfl fun _ => passes_pure
  · exact c.passes_refl

theorem passes_openChain (depth : Nat) : Passes (openChain depth) := fun c => c.passes_refl

theorem passes_closeChain (outer : Nat) : Passes (closeChain outer) := fun c => c.passes_refl

theorem passes_deepen : Passes deepen := fun c =>
  comes_modify (comes_get (comes_ite (fun _ => c.passes_refl) fun _ => c.passes_refl))

theorem consumes_enter {depth : Nat} (hp : Consumes p) : Consumes (enter depth p) := fun _ => comes_enter (hp _)

end
end Parser

open ScriptEngine.Tree.Parser

/-- The readers of a level pass tokens, and if they succeed at least one. -/
structure Level.Progresses (l : Level) : Prop where
  unary (braces : Bool) : Consumes (l.unary braces)
  block (braces : Bool) : Consumes (l.block braces)
  branch (braces : Bool) : Consumes (l.branch braces)

namespace Level

section
variable {l : Level} {braces : Bool}

/-! ### Expressions -/

theorem passes_climb (hl : l.Progresses) (fuel least : Nat) (left : Expr) :
    Parser.Passes (l.climb braces fuel least left) := by
  induction fuel generalizing least left with
  | zero => exact passes_pure
  | succ fuel ih =>
    intro c
    refine comes_get ?_
    split
    · exact c.passes_refl
    · rename_i op hop
      refine comes_ite (fun _ => c.passes_refl) fun _ => ?_
      have operator (span : Span) : Parser.Passes (do
          let outer ← openChain l.depth
          let first ← l.unary braces
          let right ← l.climb braces fuel (op.precedence + 1) first
          closeChain outer
          deepen
          l.climb braces fuel least (.binary op left right (left.span.cover right.span))) :=
        passes_bind (passes_openChain _) fun _ => passes_bind (hl.unary _).passes fun _ => passes_bind (ih _ _) fun _ =>
          passes_bind (passes_closeChain _) fun _ => passes_bind passes_deepen fun _ => ih _ _
      exact (comes_next_inner rfl (inner_of_binaryOp hop) operator).imp (fun _ _ => Cursor.Consumes.passes) fun _ _ => id

theorem consumes_expression (hl : l.Progresses) : Consumes (l.expression braces) :=
  consumes_after (passes_openChain _) fun _ => consumes_bind (hl.unary _) fun _ => passes_bind passes_get fun _ =>
    passes_bind (passes_climb hl _ _ _) fun _ => passes_bind (passes_closeChain _) fun _ => passes_pure

theorem passes_items (hl : l.Progresses) (close : Mark) (fuel : Nat) : Parser.Passes (l.items close fuel) := by
  induction fuel with
  | zero => exact passes_pure
  | succ fuel ih =>
    refine passes_bind passes_get fun _ => passes_ite passes_pure ?_
    refine passes_bind (consumes_expression hl).passes fun _ => passes_bind (passes_takeMark _) fun _ => ?_
    exact passes_ite (passes_bind ih fun _ => passes_pure) passes_pure

theorem consumes_closedItems (hl : l.Progresses) (close : Mark) : Consumes (l.closedItems close) :=
  consumes_after passes_get fun _ => consumes_after (passes_items hl _ _) fun _ => consumes_bind (consumes_expect _) fun _ =>
    passes_pure

theorem consumes_nameOrPath : Consumes nameOrPath :=
  consumes_bind (consumes_ident _) fun _ => passes_bind (passes_takeMark _) fun _ =>
    passes_ite (passes_bind (consumes_ident _).passes fun _ => passes_pure) passes_pure

theorem consumes_primary (hl : l.Progresses) : Consumes (l.primary braces) := by
  refine consumes_after (passes_takeKeyword _) fun _ => consumes_ite ?_ ?_
  · exact consumes_bind (hl.branch _) fun _ => passes_pure
  refine consumes_after passes_get fun _ => consumes_ite ?_ fun c => comes_get ?_
  · exact consumes_bind (hl.block _) fun _ => passes_pure
  split
  case h_1 => exact consumes_nameOrPath c
  case h_7 =>
    refine comes_next_inner ‹_› rfl fun _ => passes_bind (consumes_expression hl).passes fun _ => ?_
    exact passes_bind (consumes_expect _).passes fun _ => passes_pure
  case h_8 =>
    exact comes_next_inner ‹_› rfl fun _ => passes_bind (consumes_closedItems hl _).passes fun _ => passes_pure
  case h_9 => exact consumes_failHere c
  all_goals exact comes_next_inner ‹_› rfl fun _ => passes_pure

theorem passes_suffixes (hl : l.Progresses) (fuel : Nat) (e : Expr) : Parser.Passes (l.suffixes braces fuel e) := by
  induction fuel generalizing e with
  | zero => exact passes_pure
  | succ fuel ih =>
    refine passes_bind (passes_takeMark _) fun _ => passes_ite ?_ ?_
    · exact passes_bind (consumes_closedItems hl _).passes fun _ => passes_bind passes_deepen fun _ => ih _
    · refine passes_bind (passes_takeMark _) fun _ => passes_ite ?_ passes_pure
      exact passes_bind (consumes_expression hl).passes fun _ => passes_bind (consumes_expect _).passes fun _ =>
        passes_bind passes_deepen fun _ => ih _

theorem consumes_operand (hl : l.Progresses) : Consumes (l.operand braces) :=
  consumes_after (passes_openChain _) fun _ => consumes_bind (consumes_primary hl) fun _ => passes_bind passes_get fun _ =>
    passes_bind (passes_suffixes hl _ _) fun _ => passes_bind (passes_closeChain _) fun _ => passes_pure

theorem consumes_unaryBody (hl : l.Progresses) : Consumes (l.unaryBody braces) := by
  refine fun c => comes_get ?_
  split
  · exact comes_next_inner rfl (inner_of_unaryOp ‹_›) fun _ => passes_bind (hl.unary _).passes fun _ => passes_pure
  · exact consumes_operand hl c

theorem passes_otherwise (hl : l.Progresses) : Parser.Passes (l.otherwise braces) := by
  refine passes_bind (passes_takeKeyword _) fun _ => passes_ite ?_ passes_pure
  refine passes_bind (passes_takeKeyword _) fun _ => passes_ite ?_ ?_
  · exact passes_bind (hl.branch _).passes fun _ => passes_pure
  · exact passes_bind (hl.block _).passes fun _ => passes_pure

theorem consumes_branchBody (hl : l.Progresses) : Consumes (l.branchBody braces) :=
  consumes_after passes_get fun _ => consumes_bind (consumes_expression hl) fun _ => passes_bind (hl.block _).passes fun _ =>
    passes_bind (passes_otherwise hl) fun _ => passes_pure

/-! ### Statements -/

theorem consumes_bindStmt (hl : l.Progresses) {start : Nat} : Consumes (l.bindStmt braces start) := by
  have ended {s : Stmt} : Parser.Passes (expect .semicolon >>= fun _ => pure s) :=
    passes_bind (consumes_expect _).passes fun _ => passes_pure
  refine consumes_after (passes_takeKeyword _) fun _ => consumes_bind (consumes_ident _) fun _ => ?_
  exact passes_bind (passes_takeMark _) fun _ => passes_ite (passes_bind (consumes_expression hl).passes fun _ => ended) ended

theorem passes_params (fuel : Nat) : Parser.Passes (params fuel) := by
  induction fuel with
  | zero => exact passes_pure
  | succ fuel ih =>
    refine passes_bind (consumes_ident _).passes fun _ => passes_bind (passes_takeMark _) fun _ => passes_ite ?_ passes_pure
    exact passes_bind passes_get fun _ => passes_ite passes_pure (passes_bind ih fun _ => passes_pure)

theorem consumes_funcStmt (hl : l.Progresses) {start : Nat} : Consumes (l.funcStmt braces start) := by
  have body {name : Ident} (names : List Ident) : Parser.Passes (do
      let _ ← expect .closeParen
      let body ← l.block braces
      return Stmt.func name names body ⟨start, body.span.stop⟩) :=
    passes_bind (consumes_expect _).passes fun _ => passes_bind (hl.block _).passes fun _ => passes_pure
  refine consumes_bind (consumes_ident _) fun _ => passes_bind (consumes_expect _).passes fun _ => ?_
  refine passes_bind passes_get fun _ => passes_ite (body []) ?_
  exact passes_bind passes_get fun _ => passes_bind (passes_params _) body

theorem consumes_retStmt (hl : l.Progresses) {start : Nat} : Consumes (l.retStmt braces start) := by
  refine fun c => comes_get (comes_ite (fun hsemicolon => ?_) fun _ => ?_)
  · exact comes_next_inner (Cursor.lexeme_of_atMark hsemicolon) rfl fun _ => passes_pure
  · exact consumes_bind (consumes_expression hl) (fun _ => passes_bind (consumes_expect _).passes fun _ => passes_pure) c

theorem consumes_loopStmt (hl : l.Progresses) {start : Nat} : Consumes (l.loopStmt braces start) :=
  consumes_bind (consumes_expression hl) fun _ => passes_bind (hl.block _).passes fun _ => passes_pure

theorem consumes_assignStmt (hl : l.Progresses) (target : Expr) : Consumes (l.assignStmt braces target) := by
  unfold assignStmt
  split
  case h_3 => exact consumes_fail
  all_goals
    exact consumes_bind (consumes_expression hl) fun _ => passes_bind (consumes_expect _).passes fun _ => passes_pure

theorem consumes_exprItem (hl : l.Progresses) : Consumes (l.exprItem braces) := by
  refine consumes_bind (consumes_expression hl) fun e => passes_bind (passes_takeMark _) fun _ => passes_ite ?_ ?_
  · exact passes_bind (consumes_assignStmt hl e).passes fun _ => passes_pure
  · refine passes_bind (passes_takeMark _) fun _ => passes_ite passes_pure ?_
    exact passes_bind passes_get fun _ => passes_ite passes_pure passes_pure

/-- A statement or a tail takes at least a token, and one that begins with a keyword takes it even if it fails. -/
theorem consumes_item (hl : l.Progresses) (c : Cursor) : Comes (l.item braces) c (fun _ c' => c.Consumes c') fun _ c' =>
    c.Passes c' ∧ (c.lexeme.opensStmt = true → c.Consumes c') := by
  have keyword {f : Span → Parser Item} {k : Keyword} (hk : c.lexeme = .keyword k) (hf : ∀ span, Parser.Passes (f span)) :
      Comes (next >>= f) c (fun _ c' => c.Consumes c') fun _ c' =>
        c.Passes c' ∧ (c.lexeme.opensStmt = true → c.Consumes c') := by
    have taken := Cursor.consumes_advance hk rfl
    exact comes_next ((hf _ c.advance).imp (fun _ _ => taken.trans) fun _ _ h => ⟨taken.passes.trans h, fun _ => taken.trans h⟩)
  have stmt {p : Parser Stmt} (hp : Consumes p) : Parser.Passes (p >>= fun s => pure (Item.stmt s)) :=
    passes_bind hp.passes fun _ => passes_pure
  refine comes_get ?_
  split
  case h_1 => exact keyword ‹_› fun _ => stmt (consumes_bindStmt hl)
  case h_2 => exact keyword ‹_› fun _ => stmt (consumes_funcStmt hl)
  case h_3 => exact keyword ‹_› fun _ => stmt (consumes_retStmt hl)
  case h_4 => exact keyword ‹_› fun _ => stmt (consumes_loopStmt hl)
  case h_5 | h_6 => exact keyword ‹_› fun _ => passes_bind (consumes_expect _).passes fun _ => passes_pure
  case h_7 hbind hfunc hret hloop _ _ =>
    refine (consumes_exprItem hl c).imp (fun _ _ => id) fun _ _ h => ⟨h, fun hopens => ?_⟩
    unfold Lexeme.opensStmt at hopens
    split at hopens
    · exact absurd ‹_› hbind
    · exact absurd ‹_› hfunc
    · exact absurd ‹_› hloop
    · exact absurd ‹_› hret
    · cases hopens

theorem passes_item (hl : l.Progresses) : Parser.Passes (l.item braces) := fun c =>
  (consumes_item hl c).imp (fun _ _ => Cursor.Consumes.passes) fun _ _ => And.left

theorem passes_blockItems (hl : l.Progresses) (fuel : Nat) : Parser.Passes (l.blockItems braces fuel) := by
  induction fuel with
  | zero => exact passes_pure
  | succ fuel ih =>
    refine passes_bind passes_get fun _ => passes_ite passes_pure (passes_bind (passes_takeMark _) fun _ => passes_ite ih ?_)
    refine passes_bind (passes_item hl) fun item => ?_
    cases item with
    | tail e => exact passes_pure
    | stmt s => exact passes_bind ih fun _ => passes_pure

theorem consumes_blockBody (hl : l.Progresses) : Consumes (l.blockBody braces) :=
  consumes_bind (consumes_expect _) fun _ => passes_bind passes_get fun _ => passes_bind (passes_blockItems hl _) fun _ =>
    passes_bind (consumes_expect _).passes fun _ => passes_pure

/-! ### All levels -/

theorem progresses_floor : floor.Progresses where
  unary _ := consumes_failHere
  block _ := consumes_failHere
  branch _ := consumes_failHere

theorem progresses_around (hl : l.Progresses) : l.around.Progresses where
  unary _ := consumes_enter (consumes_unaryBody hl)
  block _ := consumes_enter (consumes_blockBody hl)
  branch _ := consumes_enter (consumes_branchBody hl)

theorem progresses_withRoom (room : Nat) : (withRoom room).Progresses := by
  induction room with
  | zero => exact progresses_floor
  | succ room ih => exact progresses_around ih

end
end Level

/-! ### Skipping -/

namespace Cursor

theorem recover_passes (rest : List Token) (previous : Span) (peak depth : Nat) :
    Passes ⟨rest, previous, peak⟩ (recover rest previous depth) := by
  induction rest generalizing previous depth with
  | nil => exact passes_refl _
  | cons t ts ih =>
    have stays : Passes ⟨t :: ts, previous, peak⟩ ⟨t :: ts, previous, 0⟩ := passes_refl ⟨t :: ts, previous, peak⟩
    have step {x : Lexeme} (hx : t.lexeme = x) (hinner : x.isEnd = false) :
        Passes ⟨t :: ts, previous, peak⟩ ⟨ts, t.span, 0⟩ :=
      (consumes_advance (c := ⟨t :: ts, previous, peak⟩) hx hinner).passes
    have on {x : Lexeme} (depth : Nat) (hx : t.lexeme = x) (hinner : x.isEnd = false) :
        Passes ⟨t :: ts, previous, peak⟩ (recover ts t.span depth) := (step hx hinner).trans (ih t.span depth)
    unfold recover
    split
    case h_1 => exact stays
    case h_2 hx => exact on _ hx rfl
    case h_3 hx | h_4 hx =>
      split
      · exact step hx rfl
      · exact on _ hx rfl
    case h_9 hend _ _ _ _ _ _ _ =>
      cases hx : t.lexeme with
      | endOfInput => exact (hend hx).elim
      | _ => exact on _ hx rfl
    all_goals
      split
      · exact stays
      · exact on _ ‹_› rfl

theorem skipStatement_passes (c : Cursor) : c.Passes c.skipStatement := recover_passes c.rest c.previous c.peak 0

/-- A token is skipped, unless it is the end of input or a statement may begin with it. -/
theorem skipStatement_consumes {c : Cursor} (hinner : c.atEnd = false) (hopens : c.lexeme.opensStmt = false) :
    c.Consumes c.skipStatement := by
  obtain ⟨rest, previous, peak⟩ := c
  cases rest with
  | nil => cases hinner
  | cons t ts =>
    have inner : t.lexeme.isEnd = false := hinner
    have opensNone : t.lexeme.opensStmt = false := hopens
    have step : Consumes ⟨t :: ts, previous, peak⟩ ⟨ts, t.span, 0⟩ :=
      consumes_advance (c := ⟨t :: ts, previous, peak⟩) rfl inner
    have on (depth : Nat) : Consumes ⟨t :: ts, previous, peak⟩ (recover ts t.span depth) :=
      step.trans (recover_passes ts t.span 0 depth)
    unfold skipStatement recover
    split
    case h_1 hx =>
      rw [hx] at inner
      cases inner
    case h_2 | h_9 => exact on _
    case h_3 | h_4 =>
      split
      · exact step
      · exact on _
    all_goals
      rename_i hx
      rw [hx] at opensNone
      cases opensNone

end Cursor
end Tree
end ScriptEngine
