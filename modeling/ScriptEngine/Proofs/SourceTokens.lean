import ScriptEngine.Token.Lexer

/-! Tokens and their places. The end of input stands behind all other tokens and nowhere else (`tokenize_isEnd`). Tokens,
    and what is no token, take separate parts of the source text, each later than the one before (`pieces_separate`),
    and begin and end where characters begin and end (`Span.Within`). -/

namespace ScriptEngine

/-! ### Places in a text -/

/-- A range of bytes of a text that cuts no character apart. -/
structure Span.Within (source : String) (s : Span) : Prop where
  ordered : s.start ≤ s.stop
  start : String.Pos.Raw.IsValid source ⟨s.start⟩
  stop : String.Pos.Raw.IsValid source ⟨s.stop⟩

theorem Span.Within.bounded {source : String} {s : Span} (h : s.Within source) : s.stop ≤ source.utf8ByteSize :=
  h.stop.le_utf8ByteSize

theorem byteLength_eq (cs : List Char) : byteLength cs = (String.ofList cs).utf8ByteSize := by
  induction cs with
  | nil => rfl
  | cons c cs ih => rw [byteLength, ih, String.ofList_cons, String.utf8ByteSize_append, String.utf8ByteSize_singleton]

theorem byteLength_toList (s : String) : byteLength s.toList = s.utf8ByteSize := by
  rw [byteLength_eq, String.ofList_toList]

theorem byteLength_pos {cs : List Char} (h : cs ≠ []) : 0 < byteLength cs := by
  cases cs with
  | nil => exact absurd rfl h
  | cons c cs => exact Nat.add_pos_left c.utf8Size_pos _

/-- A character ends where the characters before it and it end. -/
theorem isValid_byteLength {source : String} {before after : List Char} (h : source.toList = before ++ after) :
    String.Pos.Raw.IsValid source ⟨byteLength before⟩ := by
  refine String.Pos.Raw.isValid_iff_exists_append.mpr ⟨String.ofList before, String.ofList after, ?_, ?_⟩
  · rw [← String.ofList_append, ← h, String.ofList_toList]
  · rw [byteLength_eq]
    rfl

namespace Lexer

/-! ### The end of input -/

/-- A literal, a mark, or what is no token: neither a word nor the end of input. -/
def Piece.isUnnamed : Piece → Bool
  | lexeme (.integer _) | lexeme (.float _) | lexeme (.text _) | lexeme (.mark _) => true
  | lexeme _ => false
  | _ => true

theorem number_isUnnamed (cs : List Char) : (number cs).piece.isUnnamed = true := by
  simp only [number, numberPiece]
  split
  all_goals split
  all_goals rfl

theorem text_isUnnamed (cs : List Char) : (text cs).piece.isUnnamed = true := by
  unfold text
  split
  all_goals rfl

/-- A mark is cut off as this mark, or it is reported. -/
theorem mark_piece (c : Char) (cs : List Char) :
    (∃ m, (mark c cs).piece = .lexeme (.mark m)) ∨ ∃ f, (mark c cs).piece = .fault f := by
  have two (first second : Char) (one both : Piece) :
      (oneOrTwo first second one both cs).piece = one ∨ (oneOrTwo first second one both cs).piece = both := by
    unfold oneOrTwo
    split
    · exact .inl rfl
    · split
      · exact .inr rfl
      · exact .inl rfl
  unfold mark
  split
  · exact .inl ⟨_, rfl⟩
  · split
    · rcases two c c _ _ with h | h
      · exact .inr ⟨_, h⟩
      · exact .inl ⟨_, h⟩
    · split
      · rcases two c '=' _ _ with h | h
        all_goals exact .inl ⟨_, h⟩
      · exact .inr ⟨_, rfl⟩

theorem mark_isUnnamed (c : Char) (cs : List Char) : (mark c cs).piece.isUnnamed = true := by
  rcases mark_piece c cs with ⟨m, h⟩ | ⟨f, h⟩
  all_goals
    rw [h]
    rfl

/-- What is cut off a text is a word, or it is neither a word nor the end of input. -/
theorem scan_cases (c : Char) (cs : List Char) :
    (isWordStart c = true ∧ scan c cs = word (c :: cs)) ∨ (scan c cs).piece.isUnnamed = true := by
  unfold scan
  split
  · exact .inr rfl
  · unfold blockComment
    split
    all_goals exact .inr rfl
  · split
    · exact .inr rfl
    split
    · exact .inl ⟨‹_›, rfl⟩
    split
    · exact .inr (number_isUnnamed _)
    split
    · exact .inr (text_isUnnamed _)
    · exact .inr (mark_isUnnamed _ _)

/-- No piece that is cut off a text is the end of input. -/
theorem scan_isEnd {c : Char} {cs : List Char} {l : Lexeme} (h : (scan c cs).piece = .lexeme l) : l.isEnd = false := by
  obtain ⟨-, hword⟩ | hunnamed := scan_cases c cs
  · rw [hword, word] at h
    cases h
    unfold Lexeme.ofWord
    split
    all_goals rfl
  · rw [h] at hunnamed
    cases l with
    | endOfInput => cases hunnamed
    | _ => rfl

/-- The end of input stands behind all other tokens and nowhere else. -/
theorem tokenize_isEnd {cs : List Char} {tokens : List Token} (h : tokenize cs = .ok tokens) :
    ∃ front last, tokens = front ++ [last] ∧ last.lexeme = .endOfInput ∧ ∀ t ∈ front, t.lexeme.isEnd = false := by
  have all (cs : List Char) (offset : Nat) : ∃ front last,
      ((pieces cs offset).foldr (fun p (found : Found) => found.cons p.1 p.2) ⟨[], []⟩).tokens = front ++ [last] ∧
        last.lexeme = .endOfInput ∧ ∀ t ∈ front, t.lexeme.isEnd = false := by
    fun_induction pieces cs offset with
    | case1 offset => exact ⟨[], _, rfl, rfl, fun _ h => (nomatch h)⟩
    | case2 offset c cs cut stop ih =>
      obtain ⟨front, last, htokens, hlast, hfront⟩ := ih
      rw [List.foldr_cons]
      cases hpiece : cut.piece with
      | skipped | fault => exact ⟨front, last, htokens, hlast, hfront⟩
      | lexeme l =>
        have inner : l.isEnd = false := scan_isEnd hpiece
        exact ⟨⟨l, ⟨offset, stop⟩⟩ :: front, last, congrArg _ htokens, hlast, List.forall_mem_cons.mpr ⟨inner, hfront⟩⟩
  simp only [tokenize] at h
  split at h
  · cases h
    exact all cs 0
  · cases h

/-! ### Places of pieces -/

/-- The pieces of the rest of a text are in the text, and each begins where the one before ends or later. -/
theorem pieces_separate {source : String} (before cs : List Char) (h : source.toList = before ++ cs) :
    ((pieces cs (byteLength before)).map Prod.snd).Pairwise (fun a b => a.stop ≤ b.start) ∧
    ∀ s ∈ (pieces cs (byteLength before)).map Prod.snd, byteLength before ≤ s.start ∧ s.Within source := by
  generalize hoffset : byteLength before = offset
  fun_induction pieces cs offset generalizing before with
  | case1 offset =>
    have here := hoffset ▸ isValid_byteLength h
    refine ⟨List.pairwise_singleton .., fun s hs => ?_⟩
    rw [List.mem_singleton.mp hs]
    exact ⟨Nat.le_refl _, Nat.le_refl _, here, here⟩
  | case2 offset c cs cut stop ih =>
    have joined : source.toList = (before ++ cut.taken) ++ cut.rest := by rw [h, List.append_assoc, scan_joins]
    have hstop : byteLength (before ++ cut.taken) = stop := by rw [byteLength_append, hoffset]
    obtain ⟨separate, within⟩ := ih _ joined hstop
    have later : offset ≤ stop := Nat.le_add_right ..
    refine ⟨List.pairwise_cons.mpr ⟨fun s hs => (within s hs).1, separate⟩, List.forall_mem_cons.mpr ⟨?_, fun s hs => ?_⟩⟩
    · exact ⟨Nat.le_refl _, later, hoffset ▸ isValid_byteLength h, hstop ▸ isValid_byteLength joined⟩
    · exact ⟨Nat.le_trans later (within s hs).1, (within s hs).2⟩

/-- Every token and everything that is no token has the place of its own piece. -/
theorem foldr_spans (ps : List (Piece × Span)) :
    ((ps.foldr (fun p (found : Found) => found.cons p.1 p.2) ⟨[], []⟩).tokens.map Token.span).Sublist (ps.map Prod.snd) ∧
    ((ps.foldr (fun p (found : Found) => found.cons p.1 p.2) ⟨[], []⟩).errors.map Error.span).Sublist (ps.map Prod.snd) := by
  induction ps with
  | nil => exact ⟨.slnil, .slnil⟩
  | cons p ps ih =>
    obtain ⟨piece, span⟩ := p
    obtain ⟨htokens, herrors⟩ := ih
    cases piece with
    | skipped => exact ⟨htokens.cons _, herrors.cons _⟩
    | lexeme l => exact ⟨htokens.cons_cons _, herrors.cons _⟩
    | fault f => exact ⟨htokens.cons _, herrors.cons_cons _⟩

/-- Tokens are in the text, each behind the one before. -/
theorem tokenize_separate {source : String} {tokens : List Token} (h : tokenize source.toList = .ok tokens) :
    (tokens.map Token.span).Pairwise (fun a b => a.stop ≤ b.start) ∧ ∀ s ∈ tokens.map Token.span, s.Within source := by
  obtain ⟨separate, within⟩ := pieces_separate [] source.toList rfl
  simp only [tokenize] at h
  split at h
  · cases h
    have sub := (foldr_spans (pieces source.toList 0)).1
    exact ⟨separate.sublist sub, fun s hs => (within s (sub.mem hs)).2⟩
  · cases h

/-- What is no token is reported in the order of the text. -/
theorem tokenize_errors {source : String} {errors : List Error} (h : tokenize source.toList = .error errors) :
    (errors.map Error.span).Pairwise (fun a b => a.start ≤ b.start) ∧ ∀ s ∈ errors.map Error.span, s.Within source := by
  obtain ⟨separate, within⟩ := pieces_separate [] source.toList rfl
  simp only [tokenize] at h
  split at h
  · cases h
  · cases h
    have sub := (foldr_spans (pieces source.toList 0)).2
    refine ⟨(separate.sublist sub).imp_of_mem fun ha _ hab => ?_, fun s hs => (within s (sub.mem hs)).2⟩
    exact Nat.le_trans (within _ (sub.mem ha)).2.ordered hab

end Lexer
end ScriptEngine
