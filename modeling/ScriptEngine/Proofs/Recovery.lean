import ScriptEngine.Proofs.ReadBack
import ScriptEngine.Proofs.Sequencing
import ScriptEngine.Proofs.SourceTokens
import ScriptEngine.Proofs.TokenProgress

/-! Recovery from errors. The statements of a fragment are read in turns (`Reading.turn`). A turn takes at least one token and
    never the end of input, whether its statement can be read or is skipped (`Reading.turn_consumes`). What a reader does is
    told by the tokens before it: the token behind it counts only once it has taken one (`Parser.Forgets`). So what the
    rest of a reading adds, from the place where any of its turns begins, is what is read from the tokens there afresh
    (`Reading.turns_fresh`). -/

namespace ScriptEngine.Tree

/-! ### Places before the same tokens -/

namespace Cursor

/-- The same tokens come next, whatever token stands before them. -/
def Alike (c d : Cursor) : Prop := c.rest = d.rest ∧ c.peak = d.peak ∧ c.span = d.span

/-- The same tokens come next, however high the expressions before them were. -/
def Faces (c d : Cursor) : Prop := c.rest = d.rest ∧ c.span = d.span

section
variable {c d : Cursor}

theorem alike_refl (c : Cursor) : c.Alike c := ⟨rfl, rfl, rfl⟩

theorem Alike.lexeme (h : c.Alike d) : c.lexeme = d.lexeme := by
  unfold Cursor.lexeme
  rw [h.1]

theorem Alike.atMark (h : c.Alike d) (m : Mark) : c.atMark m = d.atMark m := by rw [Cursor.atMark, Cursor.atMark, h.lexeme]

theorem Alike.setPeak (h : c.Alike d) (peak : Nat) : Alike { c with peak := peak } { d with peak := peak } :=
  ⟨h.1, rfl, h.2.2⟩

/-- Behind the next token the two places are one. -/
theorem Alike.advance (h : c.Alike d) : c.advance = d.advance := by
  obtain ⟨rest, previous, peak⟩ := c
  obtain ⟨rest', previous', peak'⟩ := d
  obtain ⟨hrest, hpeak, hspan⟩ := h
  cases hrest
  cases hpeak
  cases rest with
  | nil =>
    cases hspan
    rfl
  | cons t ts => rfl

theorem Alike.faces (h : c.Alike d) : c.Faces d := ⟨h.1, h.2.2⟩

theorem faces_refl (c : Cursor) : c.Faces c := ⟨rfl, rfl⟩

theorem Faces.atEnd (h : c.Faces d) : c.atEnd = d.atEnd := by rw [Cursor.atEnd, Cursor.atEnd, Cursor.lexeme, Cursor.lexeme, h.1]

theorem Faces.advance (h : c.Faces d) : c.advance.Faces d.advance := by
  obtain ⟨rest, previous, peak⟩ := c
  obtain ⟨rest', previous', peak'⟩ := d
  obtain ⟨hrest, hspan⟩ := h
  cases hrest
  cases rest with
  | nil => exact ⟨rfl, hspan⟩
  | cons t ts => exact ⟨rfl, rfl⟩

/-- The last token, and no other one, is the end of input. -/
def Ends (last : Token) (c : Cursor) : Prop :=
  last.lexeme = .endOfInput ∧ ∃ front, c.rest = front ++ [last] ∧ ∀ t ∈ front, t.lexeme.isEnd = false

theorem Ends.span_eq {last : Token} (h : c.Ends last) {previous : Span} {peak : Nat} :
    c.span = Cursor.span ⟨c.rest, previous, peak⟩ := by
  obtain ⟨-, front, hrest, -⟩ := h
  obtain ⟨rest, previous', peak'⟩ := c
  cases rest with
  | nil => cases List.append_ne_nil_of_right_ne_nil front (List.cons_ne_nil last []) hrest.symm
  | cons t ts => rfl

theorem Ends.length_pos {last : Token} (h : c.Ends last) : 0 < c.rest.length := by
  obtain ⟨-, front, hrest, -⟩ := h
  rw [hrest, List.length_append, List.length_singleton]
  omega

/-- The end of input has nothing behind it. -/
theorem Ends.atEnd_rest {last : Token} (h : c.Ends last) (hend : c.atEnd = true) : c.rest = [last] := by
  obtain ⟨-, front, hrest, inner⟩ := h
  cases front with
  | nil => exact hrest
  | cons t front =>
    rw [Cursor.atEnd, Cursor.lexeme, hrest] at hend
    cases (inner t (.head _)).symm.trans hend

/-- What is passed is not the end. -/
theorem Ends.passes {last : Token} (h : c.Ends last) (hpass : c.Passes d) : d.Ends last := by
  obtain ⟨hlast, front, hrest, inner⟩ := h
  obtain ⟨used, hused, innerUsed⟩ := hpass
  have whole : used ++ d.rest = front ++ [last] := hused.symm.trans hrest
  obtain hnil | ⟨front', last', hd⟩ := List.eq_nil_or_concat d.rest
  · have : last ∈ used := by
      rw [hnil, List.append_nil] at whole
      rw [whole]
      exact List.mem_append_right _ (.head _)
    have := innerUsed last this
    rw [hlast] at this
    cases this
  · rw [List.concat_eq_append] at hd
    rw [hd, ← List.append_assoc] at whole
    obtain ⟨hfront, hlast'⟩ := List.append_inj' whole rfl
    cases hlast'
    exact ⟨hlast, front', hd, fun t ht => inner t (hfront ▸ List.mem_append_right used ht)⟩

end
end Cursor

namespace Parser

/-- Two runs of a reader come to the same; or they fail in the same way, before the same tokens. -/
def Agree {α : Type} (r s : EStateM.Result SyntaxError Cursor α) : Prop :=
  r = s ∨ ∃ e c d, r = .error e c ∧ s = .error e d ∧ c.Alike d

/-- A reader does the same whatever token stands before it. -/
def Forgets {α : Type} (p : Parser α) : Prop := ∀ c d, c.Alike d → Agree (p c) (p d)

section
variable {α β : Type} {p q : Parser α} {f : α → Parser β}

/-- Once a token is taken nothing is to be forgotten. -/
theorem forgets_bind (hp : Forgets p) : Forgets (p >>= f) := by
  intro c d h
  have bound (c : Cursor) : (p >>= f) c = EStateM.bind p f c := rfl
  rw [bound, bound, EStateM.bind, EStateM.bind]
  obtain same | ⟨e, c', d', hc, hd, alike⟩ := hp c d h
  · rw [same]
    exact .inl rfl
  · rw [hc, hd]
    exact .inr ⟨e, c', d', rfl, rfl, alike⟩

theorem forgets_failHere {cause : SyntaxCause} : Forgets (failHere cause : Parser α) := fun c d h =>
  .inr ⟨⟨cause, c.span⟩, c, d, rfl, by rw [h.2.2]; rfl, h⟩

theorem forgets_next : Forgets next := fun c d h => by
  refine .inl ?_
  show EStateM.Result.ok c.advance.previous c.advance = .ok d.advance.previous d.advance
  rw [h.advance]

theorem forgets_get {f : Cursor → Parser α} (hf : ∀ c d, c.Alike d → Agree (f c c) (f d d)) : Forgets (get >>= f) := hf

theorem forgets_expect (m : Mark) : Forgets (expect m) := by
  refine forgets_get fun c d h => ?_
  rw [h.atMark]
  split
  · exact forgets_next c d h
  · exact .inr ⟨⟨.expectedMark m c.lexeme, c.span⟩, c, d, rfl, by rw [h.lexeme, h.2.2]; rfl, h⟩

theorem forgets_ident (missing : SyntaxCause) : Forgets (ident missing) := by
  refine forgets_get fun c d h => ?_
  rw [h.lexeme]
  cases d.lexeme with
  | word name => exact forgets_bind forgets_next c d h
  | _ => exact forgets_failHere c d h

theorem takeKeyword_run (k : Keyword) (c : Cursor) :
    takeKeyword k c = if c.atKeyword k then .ok true c.advance else .ok false c := by
  show (if c.atKeyword k then next >>= fun _ => pure true else pure false : Parser Bool) c = _
  split
  all_goals rfl

/-- A keyword that may come next: if it does not, the reader is still where it was. -/
theorem forgets_takeKeyword {k : Keyword} {f : Bool → Parser β} (hf : Forgets (f false)) :
    Forgets (takeKeyword k >>= f) := by
  intro c d h
  have bound (c : Cursor) : (takeKeyword k >>= f) c = if c.atKeyword k then f true c.advance else f false c := by
    show EStateM.bind (takeKeyword k) f c = _
    rw [EStateM.bind, takeKeyword_run]
    cases c.atKeyword k with
    | true => rfl
    | false => rfl
  rw [bound, bound, Cursor.atKeyword, Cursor.atKeyword, h.lexeme, h.advance]
  split
  · exact .inl rfl
  · exact hf c d h

theorem forgets_openChain {depth : Nat} {f : Nat → Parser β} (hf : ∀ outer, Forgets (f outer)) :
    Forgets (openChain depth >>= f) := fun c d h => by
  have same : (openChain depth >>= f) d = f c.peak { d with peak := depth } := by rw [h.2.1]; rfl
  rw [same]
  exact hf c.peak _ _ (h.setPeak depth)

theorem forgets_enter {depth : Nat} (hp : Forgets p) : Forgets (enter depth p) := fun c d h => by
  have same : enter depth p d = p { d with peak := max c.peak depth } := by rw [h.2.1]; rfl
  rw [same]
  exact hp _ _ (h.setPeak (max c.peak depth))

end
end Parser

open ScriptEngine.Tree.Parser

/-- The readers of a level that may begin a statement forget what stands before it. -/
structure Level.Forgets (l : Level) : Prop where
  unary (braces : Bool) : Parser.Forgets (l.unary braces)
  block (braces : Bool) : Parser.Forgets (l.block braces)

namespace Level

section
variable {l : Level} {braces : Bool}

theorem forgets_primary (hl : l.Forgets) : Parser.Forgets (l.primary braces) := by
  refine forgets_takeKeyword (forgets_get fun c d h => ?_)
  rw [h.atMark]
  split
  · exact forgets_bind (hl.block braces) c d h
  refine forgets_get (fun c d h => ?_) c d h
  rw [h.lexeme]
  cases d.lexeme with
  | word name => exact forgets_bind (forgets_ident _) c d h
  | integer value | float value | text value => exact forgets_bind forgets_next c d h
  | endOfInput => exact forgets_failHere c d h
  | keyword k =>
    cases k with
    | yes | no => exact forgets_bind forgets_next c d h
    | _ => exact forgets_failHere c d h
  | mark m =>
    cases m with
    | openParen | openBracket => exact forgets_bind forgets_next c d h
    | _ => exact forgets_failHere c d h

theorem forgets_unaryBody (hl : l.Forgets) : Parser.Forgets (l.unaryBody braces) := by
  refine forgets_get fun c d h => ?_
  rw [h.lexeme]
  cases unaryOp? d.lexeme with
  | some op => exact forgets_bind forgets_next c d h
  | none => exact forgets_openChain (fun _ => forgets_bind (forgets_primary hl)) c d h

theorem forgets_blockBody : Parser.Forgets (l.blockBody braces) := forgets_bind (forgets_expect _)

theorem forgets_item (hl : l.Forgets) : Parser.Forgets (l.item braces) := by
  have tail : Parser.Forgets (l.exprItem braces) :=
    forgets_bind (forgets_openChain fun _ => forgets_bind (hl.unary braces))
  refine forgets_get fun c d h => ?_
  rw [h.lexeme]
  cases d.lexeme with
  | keyword k =>
    cases k with
    | bind | func | ret | loop | leave | next => exact forgets_bind forgets_next c d h
    | _ => exact tail c d h
  | _ => exact tail c d h

theorem forgets_floor : floor.Forgets where
  unary _ := forgets_failHere
  block _ := forgets_failHere

theorem forgets_around (hl : l.Forgets) : l.around.Forgets where
  unary _ := forgets_enter (forgets_unaryBody hl)
  block _ := forgets_enter forgets_blockBody

theorem forgets_withRoom (room : Nat) : (withRoom room).Forgets := by
  induction room with
  | zero => exact forgets_floor
  | succ room ih => exact forgets_around ih

end
end Level

/-! ### Skipping from alike places -/

theorem Cursor.recover_alike {rest : List Token} {previous previous' : Span} (h : rest = [] → previous = previous')
    (depth : Nat) : Cursor.Alike (recover rest previous depth) (recover rest previous' depth) := by
  cases rest with
  | nil =>
    rw [h rfl]
    exact alike_refl _
  | cons t ts =>
    have stays : Cursor.Alike ⟨t :: ts, previous, 0⟩ ⟨t :: ts, previous', 0⟩ := ⟨rfl, rfl, rfl⟩
    unfold recover
    split
    case h_1 => exact stays
    case h_2 | h_9 => exact alike_refl _
    case h_3 | h_4 =>
      split
      all_goals exact alike_refl _
    all_goals
      split
      · exact stays
      · exact alike_refl _

theorem Cursor.Alike.skipStatement {c d : Cursor} (h : c.Alike d) : c.skipStatement.Alike d.skipStatement := by
  obtain ⟨rest, previous, peak⟩ := c
  obtain ⟨rest', previous', peak'⟩ := d
  obtain ⟨hrest, -, hspan⟩ := h
  cases hrest
  refine Cursor.recover_alike (fun hnil => ?_) 0
  cases hnil
  exact hspan

namespace Reading

/-! ### Turns -/

/-- What a turn adds to a reading. -/
inductive Addition where
  | nothing
  | stmt (s : Stmt)
  | tail (e : Expr)
  | error (e : SyntaxError)

/-- A reading with something added in front. -/
def Addition.apply : Addition → Reading → Reading
  | .nothing, r => r
  | .stmt s, r => r.addStmt s
  | .tail e, r => r.addTail e
  | .error e, r => r.addError e

/-- One turn, in which a semicolon is passed or a statement read or skipped: what it adds, and where the next one begins. -/
def turn (c : Cursor) : Addition × Cursor :=
  if c.atMark .semicolon then (.nothing, c.advance)
  else
    match Level.top.item true { c with peak := 0 } with
    | .ok (.stmt s) after => (.stmt s, after)
    | .ok (.tail e) after =>
      if after.atEnd then (.tail e, after) else (.error ⟨.expectedSemicolon, after.span⟩, after.skipStatement)
    | .error e after => (.error e, after.skipStatement)

/-- What is read from tokens when nothing was read before, as `Fragment.ofTokens` reads them. -/
def fresh (tokens : List Token) : Reading := ofCursor tokens.length ⟨tokens, ⟨0, 0⟩, 0⟩

section
variable {c d : Cursor} {fuel : Nat}

/-- Before the end of input a reading is a turn and what is read after it. -/
theorem ofCursor_turn (h : c.atEnd = false) (fuel : Nat) :
    ofCursor (fuel + 1) c = (turn c).1.apply (ofCursor fuel (turn c).2) := by
  rw [ofCursor, if_neg (Bool.eq_false_iff.mp h)]
  unfold turn
  cases c.atMark .semicolon with
  | true => rfl
  | false =>
    simp only [Bool.false_eq_true, if_false]
    cases Level.top.item true { c with peak := 0 } with
    | error e after => rfl
    | ok item after =>
      cases item with
      | stmt s => rfl
      | tail e =>
        dsimp only
        cases after.atEnd with
        | true => rfl
        | false => rfl

/-- A turn takes at least one token, and never the end of input. -/
theorem turn_consumes (h : c.atEnd = false) : c.Consumes (turn c).2 := by
  have hitem : Comes (Level.top.item true) { c with peak := 0 } (fun _ after => c.Consumes after) fun _ after =>
      c.Passes after ∧ (c.lexeme.opensStmt = true → c.Consumes after) :=
    Level.consumes_item (Level.progresses_withRoom maxNesting) { c with peak := 0 }
  unfold turn
  split
  · exact Cursor.consumes_advance (Cursor.lexeme_of_atMark ‹_›) rfl
  split
  · exact hitem.ok ‹_›
  · split
    · exact hitem.ok ‹_›
    · exact (hitem.ok ‹_›).trans (Cursor.skipStatement_passes _)
  · rename_i e after hrun
    obtain ⟨passes, keyword⟩ := hitem.error hrun
    by_cases hopens : c.lexeme.opensStmt = true
    · exact (keyword hopens).trans (Cursor.skipStatement_passes _)
    by_cases same : after.rest = c.rest
    · -- Nothing was taken before the failure, and no statement begins here, so the next token is skipped.
      have lexeme : after.lexeme = c.lexeme := by rw [Cursor.lexeme, Cursor.lexeme, same]
      refine passes.then (Cursor.skipStatement_consumes ?_ ?_)
      · rw [Cursor.atEnd, lexeme]
        exact h
      · rw [lexeme]
        exact Bool.eq_false_iff.mpr hopens
    · exact (passes.consumes same).trans (Cursor.skipStatement_passes _)

/-! ### Readings from alike places -/

/-- What a turn adds does not hang on what stands before it, nor on how high the last expression was. -/
theorem turn_faces (h : c.Faces d) : (turn c).1 = (turn d).1 ∧ (turn c).2.Faces (turn d).2 := by
  have alike : Cursor.Alike { c with peak := 0 } { d with peak := 0 } := ⟨h.1, rfl, h.2⟩
  have semicolon : c.atMark .semicolon = d.atMark .semicolon := alike.atMark .semicolon
  unfold turn
  rw [semicolon]
  split
  · exact ⟨rfl, h.advance⟩
  have forgets : Forgets (Level.top.item true) := Level.forgets_item (Level.forgets_withRoom maxNesting)
  obtain same | ⟨e, c', d', hc, hd, alike'⟩ := forgets _ _ alike
  · rw [same]
    exact ⟨rfl, Cursor.faces_refl _⟩
  · rw [hc, hd]
    exact ⟨rfl, alike'.skipStatement.faces⟩

theorem ofCursor_faces (h : c.Faces d) (fuel : Nat) : ofCursor fuel c = ofCursor fuel d := by
  induction fuel generalizing c d with
  | zero => rw [ofCursor, ofCursor, h.2]
  | succ fuel ih =>
    cases hend : c.atEnd with
    | true => rw [ofCursor_end _ hend, ofCursor_end _ (h.atEnd ▸ hend), h.2]
    | false =>
      obtain ⟨same, faces⟩ := turn_faces h
      rw [ofCursor_turn hend, ofCursor_turn (h.atEnd ▸ hend), same, ih faces]

/-- A unit of fuel for each token is enough. -/
theorem ofCursor_enough {fuel' : Nat} (h : c.rest.length ≤ fuel) (h' : c.rest.length ≤ fuel') :
    ofCursor fuel c = ofCursor fuel' c := by
  induction fuel generalizing c fuel' with
  | zero =>
    have hend : c.atEnd = true := by
      rw [Cursor.atEnd, Cursor.lexeme, List.eq_nil_of_length_eq_zero (Nat.le_zero.mp h)]
      rfl
    rw [ofCursor_end _ hend, ofCursor_end _ hend]
  | succ fuel ih =>
    cases hend : c.atEnd with
    | true => rw [ofCursor_end _ hend, ofCursor_end _ hend]
    | false =>
      have fewer := (turn_consumes hend).length_lt
      obtain _ | fuel' := fuel'
      · omega
      · have same : ofCursor fuel (turn c).2 = ofCursor fuel' (turn c).2 := ih (by omega) (by omega)
        rw [ofCursor_turn hend, ofCursor_turn hend, same]

end

/-! ### Whole readings -/

/-- The places at which the turns of a reading begin, each with what was added before. -/
inductive Turns (tokens : List Token) : List Addition → Cursor → Prop where
  | first : Turns tokens [] ⟨tokens, ⟨0, 0⟩, 0⟩
  | next {added : List Addition} {c : Cursor} (before : Turns tokens added c) (inner : c.atEnd = false) :
    Turns tokens (added ++ [(turn c).1]) (turn c).2

section
variable {tokens : List Token} {last : Token} {added : List Addition} {c : Cursor}

/-- Turns come to tokens that end as they ended, and to fewer with every turn. -/
theorem Turns.ends (ends : Cursor.Ends last ⟨tokens, ⟨0, 0⟩, 0⟩) (h : Turns tokens added c) :
    c.Ends last ∧ added.length + c.rest.length ≤ tokens.length := by
  induction h with
  | first => exact ⟨ends, Nat.le_of_eq (Nat.zero_add _)⟩
  | next _ inner ih =>
    have consumes := turn_consumes inner
    have fewer := consumes.length_lt
    refine ⟨ih.1.passes consumes.passes, ?_⟩
    rw [List.length_append, List.length_singleton]
    omega

/-- From any place before the end of input what is left is read as if it were read afresh. -/
theorem ofCursor_fresh (ends : c.Ends last) {fuel : Nat} (h : c.rest.length ≤ fuel) : ofCursor fuel c = fresh c.rest := by
  have faces : c.Faces ⟨c.rest, ⟨0, 0⟩, 0⟩ := ⟨rfl, ends.span_eq⟩
  rw [ofCursor_enough h (Nat.le_refl _), ofCursor_faces faces, fresh]

theorem fresh_turn (ends : c.Ends last) (inner : c.atEnd = false) :
    fresh c.rest = (turn c).1.apply (fresh (turn c).2.rest) := by
  have consumes := turn_consumes inner
  have fewer := consumes.length_lt
  rw [← ofCursor_fresh ends (Nat.le_succ _), ofCursor_turn inner,
    ofCursor_fresh (ends.passes consumes.passes) (Nat.le_of_lt fewer)]

/-- A whole reading is what was added before a turn, and what is read from there afresh. -/
theorem Turns.fresh_eq (ends : Cursor.Ends last ⟨tokens, ⟨0, 0⟩, 0⟩) (h : Turns tokens added c) :
    fresh tokens = added.foldr Addition.apply (fresh c.rest) := by
  induction h with
  | first => rfl
  | next before inner ih =>
    rw [ih, fresh_turn (before.ends ends).1 inner, List.foldr_append]
    rfl

/-- Turn after turn comes to the end of input. -/
theorem Turns.exists_last (h : Turns tokens added c) : ∃ added' c', Turns tokens added' c' ∧ c'.atEnd = true := by
  induction hn : c.rest.length using Nat.strongRecOn generalizing added c with
  | ind n ih =>
    cases hend : c.atEnd with
    | true => exact ⟨added, c, h, hend⟩
    | false => exact ih _ (hn ▸ (turn_consumes hend).length_lt) (h.next hend) rfl

/-- A text is read in fewer turns than it has tokens. Every turn takes at least one token, and never the end of input;
    what the rest of the reading adds from the place where it begins, whatever was read and reported before, is what is
    read from the tokens there afresh, so that a reading is what its turns add one after the other; and the last turn
    leaves the end of input alone. -/
theorem turns_fresh {source : List Char} (lexed : Lexer.tokenize source = .ok tokens) :
    (∀ added c, Turns tokens added c →
      (c.atEnd = false → c.Consumes (turn c).2) ∧
      (∀ fuel, c.rest.length ≤ fuel → ofCursor fuel c = fresh c.rest) ∧
      fresh tokens = added.foldr Addition.apply (fresh c.rest) ∧
      added.length < tokens.length) ∧
    ∃ added c last, Turns tokens added c ∧ c.rest = [last] ∧ last.lexeme = .endOfInput ∧
      fresh tokens = added.foldr Addition.apply ⟨[], none, [], last.span.start⟩ := by
  obtain ⟨front, last, rfl, hlast, inner⟩ := Lexer.tokenize_isEnd lexed
  have start : Cursor.Ends last ⟨front ++ [last], ⟨0, 0⟩, 0⟩ := ⟨hlast, front, rfl, inner⟩
  constructor
  · intro added c h
    obtain ⟨ends, hlength⟩ := h.ends start
    have := ends.length_pos
    exact ⟨turn_consumes, fun fuel hfuel => ofCursor_fresh ends hfuel, h.fresh_eq start, by omega⟩
  · have begun : Turns (front ++ [last]) [] ⟨front ++ [last], ⟨0, 0⟩, 0⟩ := .first
    obtain ⟨added, c, h, hend⟩ := begun.exists_last
    obtain ⟨ends, -⟩ := h.ends start
    have alone := ends.atEnd_rest hend
    refine ⟨added, c, last, h, alone, hlast, ?_⟩
    have ended : Cursor.atEnd ⟨[last], ⟨0, 0⟩, 0⟩ = true := by
      show last.lexeme.isEnd = true
      rw [hlast]
      rfl
    rw [h.fresh_eq start, fresh, alone, ofCursor_end _ ended]
    rfl

/-- The first of these statements is wrong where nothing of it can be taken, and is skipped with the brace behind it; the
    second one breaks off before the keyword of the third. The third is read as it is read from its own tokens, though two
    errors were met before it. -/
theorem turns_fresh_unreadable : ∃ tokens added c, Lexer.tokenize ") \x7d let y = 2 let z = 3; z".toList = .ok tokens ∧
    Turns tokens added c ∧ c.atEnd = false ∧ c.Consumes (turn c).2 ∧ (fresh tokens).errors.length = 2 ∧
    (fresh c.rest).errors = [] ∧ (fresh c.rest).stmts.length = 1 ∧
    fresh tokens = added.foldr Addition.apply (fresh c.rest) ∧ ofCursor c.rest.length c = fresh c.rest := by
  have computes : ((Lexer.tokenize ") \x7d let y = 2 let z = 3; z".toList).toOption.any fun tokens =>
      let c₁ : Cursor := ⟨tokens, ⟨0, 0⟩, 0⟩
      let c₂ := (turn c₁).2
      let c₃ := (turn c₂).2
      !c₁.atEnd && !c₂.atEnd && !c₃.atEnd && (fresh tokens).errors.length == 2 && (fresh c₃.rest).errors.isEmpty &&
        (fresh c₃.rest).stmts.length == 1) = true := by decide +kernel
  obtain ⟨tokens, htokens, facts⟩ := (Option.any_eq_true _ _).mp computes
  simp only [Bool.and_eq_true, Bool.not_eq_true', beq_iff_eq, List.isEmpty_iff] at facts
  obtain ⟨⟨⟨⟨⟨inner₁, inner₂⟩, inner₃⟩, two⟩, clean⟩, one⟩ := facts
  have lexed := except_toOption_eq_some.mp htokens
  have turns : Turns tokens _ _ := .next (.next .first inner₁) inner₂
  obtain ⟨progress, afresh, whole, -⟩ := (turns_fresh lexed).1 _ _ turns
  exact ⟨tokens, _, _, lexed, turns, inner₃, progress inner₃, two, clean, one, whole, afresh _ (Nat.le_refl _)⟩

end
end Reading
end ScriptEngine.Tree
