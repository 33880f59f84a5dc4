import ScriptEngine.Tree.Parser

/-! What a reader comes to, step by step. `Comes` says of a reader at a place what it gives and where it ends if it
    succeeds, and what it reports and where it stopped if it fails. Every step moves the cursor by one token or not at all,
    so what is asked of a reader is asked of the steps that it takes. -/

namespace ScriptEngine.Tree

namespace Cursor

theorem advance_peak (c : Cursor) : c.advance.peak = c.peak := by
  unfold advance
  split
  all_goals rfl

theorem lexeme_of_atMark {c : Cursor} {m : Mark} (h : c.atMark m = true) : c.lexeme = .mark m := by
  unfold atMark Lexeme.isMark at h
  split at h
  · rename_i n hn
    rw [hn, of_decide_eq_true h]
  · cases h

theorem lexeme_of_atKeyword {c : Cursor} {k : Keyword} (h : c.atKeyword k = true) : c.lexeme = .keyword k := by
  unfold atKeyword Lexeme.isKeyword at h
  split at h
  · rename_i n hn
    rw [hn, of_decide_eq_true h]
  · cases h

end Cursor

namespace Parser

/-- A reader at a place succeeds in this way, or it fails in that way. -/
def Comes {α : Type} (p : Parser α) (c : Cursor) (Q : α → Cursor → Prop) (E : SyntaxError → Cursor → Prop) : Prop :=
  match p c with
  | .ok a c' => Q a c'
  | .error e c' => E e c'

/-- If a reader succeeds at a place, then in this way. -/
abbrev Gets {α : Type} (p : Parser α) (c : Cursor) (Q : α → Cursor → Prop) : Prop := Comes p c Q fun _ _ => True

section
variable {α β : Type} {p q : Parser α} {f : α → Parser β} {c : Cursor} {R : α → Cursor → Prop} {Q : β → Cursor → Prop}
  {E : SyntaxError → Cursor → Prop}

theorem comes_bind (hp : Comes p c R E) (hf : ∀ a c', R a c' → Comes (f a) c' Q E) : Comes (p >>= f) c Q E := by
  show match EStateM.bind p f c with
    | .ok b c' => Q b c'
    | .error e c' => E e c'
  unfold Comes at hp
  unfold EStateM.bind
  cases hrun : p c with
  | ok a c' =>
    rw [hrun] at hp
    exact hf a c' hp
  | error e c' =>
    rw [hrun] at hp
    exact hp

theorem Comes.imp {R' : α → Cursor → Prop} {E' : SyntaxError → Cursor → Prop} (h : Comes p c R E)
    (hR : ∀ a c', R a c' → R' a c') (hE : ∀ e c', E e c' → E' e c') : Comes p c R' E' := by
  unfold Comes at h ⊢
  cases hrun : p c with
  | ok a c' =>
    rw [hrun] at h
    exact hR a c' h
  | error e c' =>
    rw [hrun] at h
    exact hE e c' h

theorem Comes.ok {a : α} {c' : Cursor} (h : Comes p c R E) (hrun : p c = .ok a c') : R a c' := by
  unfold Comes at h
  rw [hrun] at h
  exact h

theorem Comes.error {e : SyntaxError} {c' : Cursor} (h : Comes p c R E) (hrun : p c = .error e c') : E e c' := by
  unfold Comes at h
  rw [hrun] at h
  exact h

theorem comes_ite {b : Prop} [Decidable b] (hp : b → Comes p c R E) (hq : ¬b → Comes q c R E) :
    Comes (if b then p else q) c R E := by
  split
  · exact hp ‹_›
  · exact hq ‹_›

theorem comes_get {f : Cursor → Parser β} (h : Comes (f c) c Q E) : Comes (get >>= f) c Q E := h

theorem comes_modify {g : Cursor → Cursor} {f : Unit → Parser β} (h : Comes (f ()) (g c) Q E) :
    Comes (modify g >>= f) c Q E := h

theorem comes_fail {cause : SyntaxCause} {span : Span} (h : E ⟨cause, span⟩ c) : Comes (fail cause span) c R E := h

theorem comes_failHere {cause : SyntaxCause} (h : E ⟨cause, c.span⟩ c) : Comes (failHere cause) c R E := h

theorem comes_next {f : Span → Parser β} (h : Comes (f c.advance.previous) c.advance Q E) : Comes (next >>= f) c Q E := h

/-- A token that is taken if it is the right one. -/
theorem comes_taken {b : Bool} {f : Bool → Parser β} (hp : b = true → Comes (f true) c.advance Q E)
    (hq : Comes (f false) c Q E) : Comes ((if b then next >>= fun _ => pure true else pure false) >>= f) c Q E := by
  cases b with
  | false => exact hq
  | true => exact hp rfl

theorem comes_takeMark {m : Mark} {f : Bool → Parser β} (hp : c.lexeme = .mark m → Comes (f true) c.advance Q E)
    (hq : Comes (f false) c Q E) : Comes (takeMark m >>= f) c Q E :=
  comes_taken (fun hmark => hp (Cursor.lexeme_of_atMark hmark)) hq

theorem comes_takeKeyword {k : Keyword} {f : Bool → Parser β} (hp : c.lexeme = .keyword k → Comes (f true) c.advance Q E)
    (hq : Comes (f false) c Q E) : Comes (takeKeyword k >>= f) c Q E :=
  comes_taken (fun hkeyword => hp (Cursor.lexeme_of_atKeyword hkeyword)) hq

/-- A mark that must come next: the reader steps over it, or fails there. -/
theorem comes_expect {m : Mark} {f : Span → Parser β}
    (hp : c.lexeme = .mark m → Comes (f c.advance.previous) c.advance Q E)
    (hq : E ⟨.expectedMark m c.lexeme, c.span⟩ c) : Comes (expect m >>= f) c Q E := by
  refine comes_bind (R := fun span c' => c.lexeme = .mark m ∧ span = c.advance.previous ∧ c' = c.advance)
    (comes_get (comes_ite (fun hmark => ⟨Cursor.lexeme_of_atMark hmark, rfl, rfl⟩) fun _ => comes_get (comes_failHere hq)))
    ?_
  rintro _ _ ⟨hlexeme, rfl, rfl⟩
  exact hp hlexeme

theorem comes_ident {missing : SyntaxCause} {f : Ident → Parser β}
    (hp : ∀ name, c.lexeme = .word name → Comes (f ⟨name, c.advance.previous⟩) c.advance Q E)
    (hq : E ⟨missing, c.span⟩ c) : Comes (ident missing >>= f) c Q E := by
  refine comes_bind (R := fun i c' => c.lexeme = .word i.name ∧ i.span = c.advance.previous ∧ c' = c.advance)
    (comes_get ?_) ?_
  · split
    · rename_i name hname
      exact comes_next ⟨hname, rfl, rfl⟩
    · exact comes_failHere hq
  · rintro ⟨name, _⟩ _ ⟨hlexeme, rfl, rfl⟩
    exact hp name hlexeme

/-! ### Counting levels -/

theorem comes_openChain {depth : Nat} {f : Nat → Parser β} (h : Comes (f c.peak) { c with peak := depth } Q E) :
    Comes (openChain depth >>= f) c Q E := h

theorem comes_closeChain {outer : Nat} {f : Unit → Parser β} (h : Comes (f ()) { c with peak := max c.peak outer } Q E) :
    Comes (closeChain outer >>= f) c Q E := h

/-- The reader goes on if the tree is not too high now, and fails at the last token if it is. -/
theorem comes_deepen {f : Unit → Parser β}
    (hp : c.peak + 1 ≤ maxNesting → Comes (f ()) { c with peak := c.peak + 1 } Q E)
    (hq : E ⟨.tooDeep, c.previous⟩ { c with peak := c.peak + 1 }) : Comes (deepen >>= f) c Q E := by
  refine comes_bind (R := fun _ c' => c.peak + 1 ≤ maxNesting ∧ c' = { c with peak := c.peak + 1 }) ?_ ?_
  · refine comes_modify (comes_get (comes_ite (fun _ => comes_get (comes_fail hq)) fun hover => ?_))
    exact ⟨Nat.le_of_not_lt hover, rfl⟩
  · rintro _ _ ⟨hle, rfl⟩
    exact hp hle

theorem comes_enter {depth : Nat} (h : Comes p { c with peak := max c.peak depth } R E) : Comes (enter depth p) c R E := h

end
end Parser

end ScriptEngine.Tree
