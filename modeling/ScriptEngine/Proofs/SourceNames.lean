import ScriptEngine.Proofs.SourceTokens
import ScriptEngine.Proofs.TreeInvariant

/-! Names in source texts. A name token is a word of letters, digits and underscores, so what the statements of a
    fragment declare is named by words. A text that cannot be read has something wrong with it. -/

namespace ScriptEngine

/-! ### Tokens -/

/-- The name consists of letters, digits and underscores; it does not begin with a digit, and it is no keyword. -/
structure IsWord (name : String) : Prop where
  parts : ∀ c ∈ name.toList, Lexer.isWordPart c = true
  begins : ∃ c cs, name.toList = c :: cs ∧ Lexer.isWordStart c = true
  free : Keyword.ofSpelling? name = none

/-- A name is a word. -/
def Lexeme.Worded : Lexeme → Prop
  | .word name => IsWord name
  | _ => True

namespace Lexer

/-- What was cut off is no name, or one that is a word. -/
def Piece.Worded : Piece → Prop
  | .lexeme l => l.Worded
  | _ => True

theorem isWordPart_of_start {c : Char} (h : isWordStart c = true) : isWordPart c = true := by
  simp only [isWordStart, isWordPart, Char.isAlphanum, Bool.or_eq_true] at *
  rcases h with h | h
  · exact .inl (.inl h)
  · exact .inr h

theorem ofWord_worded {name : String} (parts : ∀ c ∈ name.toList, isWordPart c = true)
    (begins : ∃ c cs, name.toList = c :: cs ∧ isWordStart c = true) : (Lexeme.ofWord name).Worded := by
  unfold Lexeme.ofWord
  split
  · trivial
  · rename_i hfree
    exact ⟨parts, begins, hfree⟩

theorem word_worded {c : Char} (cs : List Char) (h : isWordStart c = true) : (word (c :: cs)).piece.Worded := by
  refine ofWord_worded (fun d hd => ?_) ⟨c, cs.takeWhile isWordPart, ?_, h⟩
  · rw [String.toList_ofList] at hd
    exact List.all_eq_true.mp List.all_takeWhile d hd
  · rw [String.toList_ofList, List.takeWhile_cons, if_pos (isWordPart_of_start h)]

theorem scan_worded (c : Char) (cs : List Char) : (scan c cs).piece.Worded := by
  obtain ⟨hstart, hword⟩ | hunnamed := scan_cases c cs
  · rw [hword]
    exact word_worded cs hstart
  · cases hpiece : (scan c cs).piece with
    | skipped | fault => trivial
    | lexeme l =>
      rw [hpiece] at hunnamed
      cases l with
      | word => cases hunnamed
      | _ => trivial

theorem pieces_worded (cs : List Char) (offset : Nat) : ∀ p ∈ pieces cs offset, p.1.Worded := by
  induction cs, offset using pieces.induct with
  | case1 offset =>
    intro p hp
    rw [pieces] at hp
    rw [List.mem_singleton.mp hp]
    trivial
  | case2 offset c cs cut stop ih =>
    intro p hp
    rw [pieces] at hp
    rcases List.mem_cons.mp hp with rfl | hp
    · exact scan_worded c cs
    · exact ih p hp

theorem tokens_worded {ps : List (Piece × Span)} (h : ∀ p ∈ ps, p.1.Worded) :
    ∀ t ∈ (ps.foldr (fun p found => found.cons p.1 p.2) ⟨[], []⟩ : Found).tokens, t.lexeme.Worded := by
  induction ps with
  | nil => simp
  | cons p ps ih =>
    obtain ⟨piece, span⟩ := p
    have hpiece := h _ (.head _)
    have rest := ih fun p hp => h p (.tail _ hp)
    cases piece with
    | skipped => exact rest
    | fault f => exact rest
    | lexeme l =>
      intro t ht
      rcases List.mem_cons.mp ht with rfl | ht
      · exact hpiece
      · exact rest t ht

/-- The names among the tokens of a text are words. -/
theorem tokenize_worded {cs : List Char} {tokens : List Token} (h : tokenize cs = .ok tokens) :
    ∀ t ∈ tokens, t.lexeme.Worded := by
  simp only [tokenize] at h
  split at h
  · cases h
    exact tokens_worded (pieces_worded cs 0)
  · cases h

theorem tokenize_error {cs : List Char} {errors : List Error} (h : tokenize cs = .error errors) : errors ≠ [] := by
  simp only [tokenize] at h
  split at h
  · cases h
  · rename_i hsome
    cases h
    simpa using hsome

end Lexer

/-! ### Reading -/

namespace Tree

/-- The name that a statement can declare at the top level. -/
def Stmt.target? : Stmt → Option Ident
  | .func name _ _ _ | .bind name _ _ _ | .assign name _ _ => some name
  | _ => none

section
variable (P : Token → Prop)

/-- The name is that of a token. -/
def Named (name : Ident) : Prop := ∃ t, P t ∧ t.lexeme = .word name.name

/-- What can be declared is named by tokens. -/
def namedTargets : Invariant P where
  ident := Named P
  expr e := ∀ name, e = .name name → Named P name
  branch _ := True
  otherwise _ := True
  block _ := True
  stmt s := ∀ name, s.target? = some name → Named P name
  word ht hname _ := ⟨_, ht, hname⟩
  of_name hname _ h := Expr.name.inj h ▸ hname
  of_path _ _ _ h := nomatch h
  of_literal _ h := nomatch h
  of_unary := by
    intro op start e _ name h
    unfold Level.applyUnary at h
    split at h
    all_goals cases h
  of_binary _ _ _ h := nomatch h
  of_call _ _ _ h := nomatch h
  of_index _ _ _ h := nomatch h
  of_list _ _ h := nomatch h
  of_branch _ _ h := nomatch h
  of_block _ _ h := nomatch h
  branch_mk _ _ _ := trivial
  no_otherwise := trivial
  otherwise_block _ := trivial
  otherwise_branch _ := trivial
  block_mk _ _ := trivial
  of_bind hname _ _ h := Option.some.inj h ▸ hname
  of_assign htarget _ _ h := Option.some.inj h ▸ htarget _ rfl
  of_setIndex _ _ _ h := nomatch h
  of_func hname _ _ _ h := Option.some.inj h ▸ hname
  of_eval _ _ h := nomatch h
  of_ret _ _ h := nomatch h
  of_loop _ _ _ h := nomatch h
  of_leave _ h := nomatch h
  of_next _ h := nomatch h

end

/-! ### Fragments -/

/-- What a statement of a fragment can declare is named by a word. -/
theorem Fragment.parse_named {source : List Char} {f : Fragment} (h : parse source = .ok f) {s : Stmt}
    (hs : s ∈ f.stmts) {name : Ident} (hname : s.target? = some name) : IsWord name.name := by
  unfold parse at h
  split at h
  · rename_i tokens htokens
    have worded : ∀ t ∈ tokens, t.lexeme.Worded := Lexer.tokenize_worded htokens
    obtain ⟨t, ht, heq⟩ := (Fragment.ofTokens_reads (namedTargets _) worded h).1 s hs name hname
    rw [heq] at ht
    exact ht
  · cases h

/-- A text that cannot be read has something wrong with it. -/
theorem Fragment.parse_error {source : List Char} {errors : List SyntaxError} (h : parse source = .error errors) :
    errors ≠ [] := by
  unfold parse at h
  split at h
  · simp only [ofTokens] at h
    split at h
    · cases h
    · rename_i hsome
      cases h
      exact fun hnil => hsome (List.isEmpty_iff.mpr hnil)
  · rename_i faults hfaults
    cases h
    exact fun hnil => Lexer.tokenize_error hfaults (List.map_eq_nil_iff.mp hnil)

end Tree
end ScriptEngine
