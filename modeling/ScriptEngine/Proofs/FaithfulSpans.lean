import Mathlib.Data.String.Basic
import ScriptEngine.Proofs.SourceTokens
import ScriptEngine.Proofs.TextPieces

/-! What the spans of tokens say about the source text. Between two tokens there is nothing but blank space and complete
    comments (`Lexer.Gap`), and the part of the text that a token takes is, read alone, this token
    (`Lexer.tokenize_faithful`). A token is cut off a text by its own characters: what stands behind it only says
    where it ends (`Lexer.scan_alone`). -/

namespace ScriptEngine

/-- The part of a source text with a span. -/
def Span.slice (source : String) (s : Span) : String := String.Pos.Raw.extract source ⟨s.start⟩ ⟨s.stop⟩

theorem utf8Len_eq_byteLength (cs : List Char) : String.utf8Len cs = byteLength cs := by
  rw [byteLength_eq, String.utf8ByteSize_ofList]

/-- The part of a text behind some characters, as long as it is. -/
theorem Span.slice_eq {source : String} (before : List Char) {part : List Char} (after : List Char) {start stop : Nat}
    (h : source.toList = before ++ part ++ after) (hstart : start = byteLength before)
    (hstop : stop = byteLength before + byteLength part) : slice source ⟨start, stop⟩ = String.ofList part := by
  have hsource : source = String.ofList (before ++ part ++ after) := by rw [← h, String.ofList_toList]
  rw [slice, hstart, hstop, ← utf8Len_eq_byteLength, ← utf8Len_eq_byteLength, hsource]
  exact String.extract_of_valid before part after

namespace Lexer

/-! ### Gaps -/

/-- What may stand before a token: blank space and complete comments. A comment from two slashes on ends with its line;
    only before the end of input can the text end first. -/
inductive Gap : (last : Bool) → List Char → Prop where
  | nil (last : Bool) : Gap last []
  | blank {last : Bool} {c : Char} {cs : List Char} (hc : Text.isBlank c = true) (more : Gap last cs) : Gap last (c :: cs)
  | line {last : Bool} {body cs : List Char} (hbody : '\n' ∉ body) (more : Gap last ('\n' :: cs)) :
      Gap last ('/' :: '/' :: (body ++ '\n' :: cs))
  | lastLine {body : List Char} (hbody : '\n' ∉ body) : Gap true ('/' :: '/' :: body)
  | block {last : Bool} {body cs : List Char} (hbody : ¬ ['*', '/'] <:+: body ++ ['*']) (more : Gap last cs) :
      Gap last ('/' :: '*' :: (body ++ '*' :: '/' :: cs))

/-- A block comment goes up to its first end mark. -/
theorem blockEnd_body {cs taken rest : List Char} (h : blockEnd cs = some (taken, rest)) :
    ∃ body, taken = body ++ ['*', '/'] ∧ ¬ ['*', '/'] <:+: body ++ ['*'] := by
  fun_induction blockEnd cs generalizing taken rest with
  | case1 => cases h
  | case2 cs =>
    cases h
    exact ⟨[], rfl, by decide⟩
  | case3 c cs hend ih =>
    obtain ⟨⟨taken', rest'⟩, found, same⟩ := Option.map_eq_some_iff.mp h
    cases same
    obtain ⟨body, rfl, hbody⟩ := ih found
    refine ⟨c :: body, rfl, fun hinfix => ?_⟩
    rcases List.infix_cons_iff.mp hinfix with hprefix | hinfix
    · -- An end mark at the beginning would have been found there.
      have joined := blockEnd_joins found
      obtain ⟨rfl, hslash⟩ := List.cons_prefix_cons.mp hprefix
      cases body with
      | nil => simp at hslash
      | cons d body =>
        obtain ⟨rfl, -⟩ := List.cons_prefix_cons.mp hslash
        exact hend _ rfl joined.symm
    · exact hbody hinfix

/-- What is skipped before a gap makes it longer, if the rest of the text is the gap and what begins a token. -/
theorem Gap.skip {last : Bool} {c : Char} {cs taken gap after : List Char} (more : Gap last gap)
    (h : scan c cs = ⟨.skipped, taken, gap ++ after⟩) (hlast : last = false → ∃ d ds, after = d :: ds ∧ d ≠ '\n')
    (hend : last = true → after = []) : Gap last (taken ++ gap) := by
  unfold scan at h
  split at h
  · rename_i rest
    obtain ⟨rfl, hrest⟩ : '/' :: '/' :: rest.takeWhile (· ≠ '\n') = taken ∧ rest.dropWhile (· ≠ '\n') = gap ++ after := by
      simpa [lineComment] using h
    have hbody : '\n' ∉ rest.takeWhile (· ≠ '\n') := fun hmem => by
      have := List.all_eq_true.mp (List.all_takeWhile (l := rest) (p := (· ≠ '\n'))) _ hmem
      simp at this
    -- Behind the comment the text ends, or there is the end of the line.
    have hhead : ∀ d ds, gap ++ after = d :: ds → d = '\n' := fun d ds hd => by
      have := List.head?_dropWhile_not (· ≠ '\n') rest
      rw [hrest, hd] at this
      simpa using this
    cases gap with
    | cons d ds =>
      obtain rfl := hhead d _ rfl
      exact .line hbody more
    | nil =>
      cases last with
      | true =>
        rw [List.append_nil]
        exact .lastLine hbody
      | false =>
        obtain ⟨d, ds, hafter, hd⟩ := hlast rfl
        exact absurd (hhead d ds hafter) hd
  · unfold blockComment at h
    split at h
    · rename_i taken' rest' found
      cases h
      obtain ⟨body, rfl, hbody⟩ := blockEnd_body found
      have block := Gap.block hbody more
      simpa using block
    · cases h
  · split at h
    · rename_i hblank
      cases h
      exact .blank hblank more
    · split at h
      · cases h
      · split at h
        · simp only [number, numberPiece] at h
          split at h <;> split at h <;> cases h
        · split at h
          · unfold text at h
            split at h <;> cases h
          · have hpiece := congrArg Cut.piece h
            rcases mark_piece c cs with ⟨m, hmark⟩ | ⟨f, hmark⟩
            all_goals
              rw [hmark] at hpiece
              cases hpiece

/-! ### Tokens alone -/

theorem mark_alone {c : Char} {cs taken rest : List Char} {l : Lexeme} (h : mark c cs = ⟨.lexeme l, taken, rest⟩) :
    ∃ ds, taken = c :: ds ∧ mark c ds = ⟨.lexeme l, taken, []⟩ := by
  have two {second : Char} {one both : Piece} (h : oneOrTwo c second one both cs = ⟨.lexeme l, taken, rest⟩) :
      ∃ ds, taken = c :: ds ∧ oneOrTwo c second one both ds = ⟨.lexeme l, taken, []⟩ := by
    unfold oneOrTwo at h
    split at h
    · cases h
      exact ⟨[], rfl, rfl⟩
    · split at h
      · rename_i hsecond
        cases h
        exact ⟨_, rfl, by rw [oneOrTwo, if_pos hsecond]⟩
      · cases h
        exact ⟨[], rfl, rfl⟩
  unfold mark at h ⊢
  split at h
  · cases h
    exact ⟨[], rfl, rfl⟩
  · split at h
    · exact two h
    · split at h
      · exact two h
      · cases h

theorem textBody_alone {cs : List Char} {b : TextBody} (h : textBody cs = some b) :
    textBody b.taken = some ⟨b.content, b.taken, []⟩ := by
  fun_induction textBody cs generalizing b with
  | case1 | case3 => cases h
  | case2 cs =>
    cases h
    rfl
  | case4 c cs ih =>
    obtain ⟨inner, found, rfl⟩ := Option.map_eq_some_iff.mp h
    simp [textBody, ih found]
  | case5 c cs hquote hend hslash ih =>
    obtain ⟨inner, found, rfl⟩ := Option.map_eq_some_iff.mp h
    -- What follows a backslash is taken with it, so `c` is no backslash.
    have hbackslash : c ≠ '\\' := by
      rintro rfl
      cases cs with
      | nil => exact hend rfl rfl
      | cons d ds => exact hslash d ds rfl rfl
    simp [textBody, ih found, hbackslash]

theorem exponentSign_digits {cs : List Char} (h : ∀ c ∈ cs, c.isDigit = true) : exponentSign cs = ([], cs) := by
  unfold exponentSign
  split
  · exact absurd (h '+' (.head _)) (by decide)
  · exact absurd (h '-' (.head _)) (by decide)
  · rfl

/-- The sign of an exponent and its digits, without what stands behind them. -/
theorem exponentSign_alone (cs : List Char) :
    exponentSign ((exponentSign cs).1 ++ (exponentSign cs).2.takeWhile Char.isDigit) =
      ((exponentSign cs).1, (exponentSign cs).2.takeWhile Char.isDigit) := by
  fun_cases exponentSign cs with
  | case1 | case2 => rfl
  | case3 => exact exponentSign_digits fun c hc => List.mem_takeWhile_imp hc

theorem exponent_alone (cs : List Char) : exponent (exponent cs).1 = ((exponent cs).1, []) := by
  cases cs with
  | nil => rfl
  | cons c cs =>
    by_cases letter : (c = 'e' || c = 'E') = true
    · have signed := exponentSign_alone cs
      simpa [exponent, letter, signed] using fun d => List.mem_takeWhile_imp
    · simp [exponent, letter]

theorem exponent_head {cs : List Char} {c : Char} (h : c ∈ (exponent cs).1.head?) : c = 'e' ∨ c = 'E' := by
  cases cs with
  | nil => cases h
  | cons d cs =>
    by_cases letter : (d = 'e' || d = 'E') = true
    · simp [exponent, letter] at h
      simpa [h] using letter
    · simp [exponent, letter] at h

/-- The decimals of a number, if what stands behind them is neither a point nor a digit. -/
theorem decimals_alone (cs : List Char) {after : List Char} (hafter : ∀ c ∈ after.head?, c ≠ '.' ∧ c.isDigit = false) :
    decimals ((decimals cs).1 ++ after) = ((decimals cs).1, after) := by
  have none : decimals after = ([], after) := by
    unfold decimals
    split
    · exact absurd rfl (hafter '.' rfl).1
    · rfl
  fun_cases decimals cs with
  | case1 d cs hd =>
    have digits (c : Char) (hc : c ∈ cs.takeWhile Char.isDigit) : c.isDigit = true := List.mem_takeWhile_imp hc
    obtain ⟨htake, hdrop⟩ := takeWhile_of_ends digits fun c hc => (hafter c hc).2
    simp [decimals, hd, htake, hdrop]
  | case2 | case3 => exact none

theorem decimals_head {cs : List Char} {c : Char} (h : c ∈ (decimals cs).1.head?) : c = '.' := by
  unfold decimals at h
  split at h
  · split at h
    · exact (Option.some.inj h).symm
    · cases h
  · cases h

theorem number_of_parts {whole places power : List Char} (hwhole : ∀ c ∈ whole, (c.isDigit || decide (c = '_')) = true)
    (hends : ∀ c ∈ (places ++ power).head?, (c.isDigit || decide (c = '_')) = false)
    (hplaces : decimals (places ++ power) = (places, power)) (hpower : exponent power = (power, [])) :
    number (whole ++ places ++ power) =
      ⟨numberPiece (!places.isEmpty || !power.isEmpty) (whole ++ places ++ power), whole ++ places ++ power, []⟩ := by
  obtain ⟨htake, hdrop⟩ := takeWhile_of_ends hwhole hends
  simp only [number, List.append_assoc, htake, hdrop, hplaces, hpower]

/-- A number is all of its own characters. -/
theorem number_alone (cs : List Char) : number (number cs).taken = { number cs with rest := [] } := by
  have letter {cs : List Char} {c : Char} (hc : c ∈ (exponent cs).1.head?) : c ≠ '.' ∧ c.isDigit = false := by
    rcases exponent_head hc with rfl | rfl
    all_goals exact ⟨by decide, rfl⟩
  refine number_of_parts (fun c hc => ?_) (fun c hc => ?_) (decimals_alone _ fun c hc => letter hc) (exponent_alone _)
  · exact List.mem_takeWhile_imp (p := fun c => c.isDigit || decide (c = '_')) hc
  · rw [List.head?_append] at hc
    rcases Option.or_eq_some_iff.mp hc with hc | ⟨-, hc⟩
    · obtain rfl := decimals_head hc
      rfl
    · rcases exponent_head hc with rfl | rfl
      all_goals rfl

/-- A word is all of its own characters. -/
theorem word_alone (cs : List Char) : word (word cs).taken = { word cs with rest := [] } := by
  have part (c : Char) (hc : c ∈ cs.takeWhile isWordPart) : isWordPart c = true := List.mem_takeWhile_imp hc
  have ends : ∀ c ∈ ([] : List Char).head?, isWordPart c = false := nofun
  obtain ⟨htake, hdrop⟩ := takeWhile_of_ends part ends
  rw [List.append_nil] at htake hdrop
  simp only [word, htake, hdrop]

/-- Only a slash begins both a token and a comment. -/
theorem scan_of_ne_slash {c : Char} (h : c ≠ '/') (cs : List Char) : scan c cs =
    if Text.isBlank c then ⟨.skipped, [c], cs⟩
    else if isWordStart c then word (c :: cs)
    else if c.isDigit then number (c :: cs)
    else if c = '"' then text cs
    else mark c cs := by
  unfold scan
  split
  · exact absurd rfl h
  · exact absurd rfl h
  · rfl

/-- A token that begins with a slash is this slash. -/
theorem scan_slash {cs taken rest : List Char} {l : Lexeme} (h : scan '/' cs = ⟨.lexeme l, taken, rest⟩) :
    taken = ['/'] ∧ l = .mark .slash := by
  unfold scan at h
  split at h
  · cases h
  · unfold blockComment at h
    split at h
    all_goals cases h
  · cases h
    exact ⟨rfl, rfl⟩

/-- A piece begins with the first character of the text. -/
theorem scan_head {c : Char} {cs taken rest : List Char} {p : Piece} (h : scan c cs = ⟨p, taken, rest⟩) :
    ∃ ds, taken = c :: ds := by
  have joined := scan_joins c cs
  have nonempty := scan_taken_ne_nil c cs
  rw [h] at joined nonempty
  cases taken with
  | nil => exact absurd rfl nonempty
  | cons d ds =>
    obtain ⟨rfl, -⟩ := List.cons_eq_cons.mp joined
    exact ⟨ds, rfl⟩

/-- A token is cut off a text by its own characters. -/
theorem scan_alone {c : Char} {cs ds rest : List Char} {l : Lexeme} (h : scan c cs = ⟨.lexeme l, c :: ds, rest⟩) :
    scan c ds = ⟨.lexeme l, c :: ds, []⟩ := by
  by_cases hslash : c = '/'
  · subst hslash
    obtain ⟨same, rfl⟩ := scan_slash h
    obtain ⟨-, rfl⟩ := List.cons_eq_cons.mp same
    rfl
  rw [scan_of_ne_slash hslash] at h ⊢
  split at h
  · cases h
  rename_i hblank
  rw [if_neg hblank]
  split at h
  · rename_i hword
    have alone := word_alone (c :: cs)
    rw [if_pos hword]
    rwa [h] at alone
  rename_i hword
  rw [if_neg hword]
  split at h
  · rename_i hdigit
    have alone := number_alone (c :: cs)
    rw [if_pos hdigit]
    rwa [h] at alone
  rename_i hdigit
  rw [if_neg hdigit]
  split at h
  · rename_i hquote
    rw [if_pos hquote]
    unfold text at h ⊢
    split at h
    · rename_i b found
      cases h
      rw [textBody_alone found]
    · cases h
  · rename_i hquote
    obtain ⟨ds', same, alone⟩ := mark_alone h
    cases same
    rw [if_neg hquote]
    exact alone

/-- The characters of a token are lexed as this token. -/
theorem tokenize_alone {c : Char} {cs ds rest : List Char} {l : Lexeme} (h : scan c cs = ⟨.lexeme l, c :: ds, rest⟩) :
    tokenize (c :: ds) =
      .ok [⟨l, ⟨0, byteLength (c :: ds)⟩⟩, ⟨.endOfInput, ⟨byteLength (c :: ds), byteLength (c :: ds)⟩⟩] := by
  simp [tokenize, found, pieces, scan_alone h, Found.cons]

/-! ### Texts -/

/-- A text that begins at a byte, its tokens, and the gaps before them. -/
inductive Lays : List Char → Nat → List Token → Prop where
  | last {gap : List Char} (offset : Nat) (hgap : Gap true gap) :
      Lays gap offset [⟨.endOfInput, ⟨offset + byteLength gap, offset + byteLength gap⟩⟩]
  | token {gap cs ds rest : List Char} {c : Char} {l : Lexeme} {offset start stop : Nat} {tokens : List Token}
      (hgap : Gap false gap) (scanned : scan c cs = ⟨.lexeme l, c :: ds, rest⟩) (hstart : start = offset + byteLength gap)
      (hstop : stop = start + byteLength (c :: ds)) (more : Lays rest stop tokens) :
      Lays (gap ++ c :: cs) offset (⟨l, ⟨start, stop⟩⟩ :: tokens)

/-- What is skipped belongs to the gap before the next token. -/
theorem Lays.skip {c : Char} {cs taken rest : List Char} {offset : Nat} {tokens : List Token}
    (scanned : scan c cs = ⟨.skipped, taken, rest⟩) (more : Lays rest (offset + byteLength taken) tokens) :
    Lays (c :: cs) offset tokens := by
  have joined := scan_joins c cs
  rw [scanned] at joined
  rw [← joined]
  cases more with
  | last _ hgap =>
    rw [← List.append_nil rest] at scanned
    have longer := hgap.skip scanned nofun fun _ => rfl
    have laid := Lays.last offset longer
    rwa [byteLength_append, ← Nat.add_assoc] at laid
  | @token gap cs' ds rest d _ _ _ _ _ hgap scanned' hstart hstop more =>
    have hbreak : d ≠ '\n' := by
      rintro rfl
      cases scanned'
    have longer := hgap.skip scanned (fun _ => ⟨d, cs', rfl, hbreak⟩) nofun
    rw [← List.append_assoc]
    refine .token longer scanned' ?_ hstop more
    rw [hstart, byteLength_append, Nat.add_assoc]

/-- The tokens of a text without faults. -/
theorem lays_pieces (cs : List Char) (offset : Nat)
    (h : ((pieces cs offset).foldr (fun p (found : Found) => found.cons p.1 p.2) ⟨[], []⟩).errors = []) :
    Lays cs offset ((pieces cs offset).foldr (fun p (found : Found) => found.cons p.1 p.2) ⟨[], []⟩).tokens := by
  fun_induction pieces cs offset with
  | case1 offset => exact .last offset (.nil true)
  | case2 offset c cs cut stop ih =>
    rw [List.foldr_cons] at h ⊢
    cases hpiece : cut.piece with
    | skipped =>
      rw [hpiece] at h
      have scanned : scan c cs = ⟨.skipped, cut.taken, cut.rest⟩ := by rw [← hpiece]
      exact .skip scanned (ih h)
    | lexeme l =>
      rw [hpiece] at h
      have scanned : scan c cs = ⟨.lexeme l, cut.taken, cut.rest⟩ := by rw [← hpiece]
      obtain ⟨ds, hds⟩ := scan_head scanned
      rw [hds] at scanned
      exact .token (.nil false) scanned rfl (by rw [← hds]) (ih h)
    | fault f =>
      rw [hpiece] at h
      cases h

/-- The token was cut off the text where its span is. -/
def IsCut (source : String) (t : Token) : Prop :=
  ∃ c cs ds rest, scan c cs = ⟨.lexeme t.lexeme, c :: ds, rest⟩ ∧ t.span.stop = t.span.start + byteLength (c :: ds) ∧
    t.span.slice source = String.ofList (c :: ds)

/-- From a byte of a text on, there are only gaps before the tokens. -/
def Gaps (source : String) (offset : Nat) : List Token → Prop
  | [] => True
  | t :: ts => Gap t.lexeme.isEnd (Span.slice source ⟨offset, t.span.start⟩).toList ∧ Gaps source t.span.stop ts

/-- The tokens of the rest of a text: the end of input behind tokens that were cut off it. -/
theorem Lays.placed {source : String} {before cs : List Char} {tokens : List Token}
    (laid : Lays cs (byteLength before) tokens) (h : source.toList = before ++ cs) :
    Gaps source (byteLength before) tokens ∧ ∃ front,
      tokens = front ++ [⟨.endOfInput, ⟨source.utf8ByteSize, source.utf8ByteSize⟩⟩] ∧ ∀ t ∈ front, IsCut source t := by
  generalize hoffset : byteLength before = offset at laid
  induction laid generalizing before with
  | @last gap offset hgap =>
    have hsize : source.utf8ByteSize = offset + byteLength gap := by
      rw [← hoffset, ← byteLength_append, ← h, byteLength_toList]
    have hslice : Span.slice source ⟨offset, offset + byteLength gap⟩ = String.ofList gap :=
      Span.slice_eq before [] (by rw [h, List.append_nil]) hoffset.symm (by rw [hoffset])
    refine ⟨⟨?_, trivial⟩, [], by rw [hsize]; rfl, nofun⟩
    rw [hslice, String.toList_ofList]
    exact hgap
  | @token gap cs ds rest c l offset start stop tokens hgap scanned hstart hstop more ih =>
    have joined := scan_joins c cs
    rw [scanned] at joined
    have hsource : source.toList = before ++ gap ++ (c :: ds) ++ rest := by rw [h, ← joined]; simp
    have hbegin : byteLength (before ++ gap) = start := by rw [byteLength_append, hoffset, hstart]
    obtain ⟨gaps, front, rfl, hfront⟩ := ih hsource (by rw [byteLength_append, hbegin, hstop])
    have hslice : Span.slice source ⟨offset, start⟩ = String.ofList gap :=
      Span.slice_eq before (c :: ds ++ rest) (by rw [hsource]; simp) hoffset.symm (by rw [hoffset, hstart])
    have htoken : Span.slice source ⟨start, stop⟩ = String.ofList (c :: ds) :=
      Span.slice_eq (before ++ gap) rest hsource hbegin.symm (by rw [hbegin, hstop])
    refine ⟨⟨?_, gaps⟩, _ :: front, rfl, List.forall_mem_cons.mpr ⟨⟨c, cs, ds, rest, scanned, hstop, htoken⟩, hfront⟩⟩
    rw [hslice, String.toList_ofList]
    dsimp only
    rw [scan_isEnd (congrArg Cut.piece scanned)]
    exact hgap

/-- A token that was cut off a text has characters of its own, and they alone are lexed as this token. -/
theorem IsCut.alone {source : String} {t : Token} (h : IsCut source t) :
    t.lexeme.isEnd = false ∧ t.span.start < t.span.stop ∧ tokenize (t.span.slice source).toList =
      .ok [⟨t.lexeme, ⟨0, t.span.stop - t.span.start⟩⟩,
        ⟨.endOfInput, ⟨t.span.stop - t.span.start, t.span.stop - t.span.start⟩⟩] := by
  obtain ⟨c, cs, ds, rest, scanned, hstop, hslice⟩ := h
  have hpos : 0 < byteLength (c :: ds) := byteLength_pos nofun
  refine ⟨scan_isEnd (congrArg Cut.piece scanned), by omega, ?_⟩
  rw [hslice, String.toList_ofList, tokenize_alone scanned, hstop, Nat.add_sub_cancel_left]

/-- Tokens whose spans are faithful to the text: only the end of input, which is last, takes no characters; each token
    stands behind the one before it, with nothing but a gap between them; and no character is cut apart. -/
structure Faithful (source : String) (tokens : List Token) : Prop where
  ends : ∃ front, tokens = front ++ [⟨.endOfInput, ⟨source.utf8ByteSize, source.utf8ByteSize⟩⟩] ∧
    ∀ t ∈ front, t.lexeme.isEnd = false
  nonempty : ∀ t ∈ tokens, t.lexeme.isEnd = false → t.span.start < t.span.stop
  separate : tokens.Pairwise fun t u => t.span.start < u.span.start ∧ t.span.stop ≤ u.span.start
  within : ∀ t ∈ tokens, t.span.Within source
  gaps : Gaps source 0 tokens
  /-- Read alone, the part of the text that a token takes is this token. -/
  alone : ∀ t ∈ tokens, t.lexeme.isEnd = false → tokenize (t.span.slice source).toList =
    .ok [⟨t.lexeme, ⟨0, t.span.stop - t.span.start⟩⟩,
      ⟨.endOfInput, ⟨t.span.stop - t.span.start, t.span.stop - t.span.start⟩⟩]

/-- The spans of the tokens of a text are faithful to it. -/
theorem tokenize_faithful {source : String} {tokens : List Token} (h : tokenize source.toList = .ok tokens) :
    Faithful source tokens := by
  obtain ⟨separate, within⟩ := tokenize_separate h
  have laid : Lays source.toList (byteLength []) tokens := by
    simp only [tokenize] at h
    split at h
    · rename_i hnone
      cases h
      exact lays_pieces source.toList 0 (List.isEmpty_iff.mp hnone)
    · cases h
  obtain ⟨gaps, front, rfl, hfront⟩ := laid.placed rfl
  -- A token that is not the end of input is one of those before it.
  have cut (t : Token) (ht : t ∈ front ++ [⟨.endOfInput, ⟨source.utf8ByteSize, source.utf8ByteSize⟩⟩])
      (hend : t.lexeme.isEnd = false) : IsCut source t := by
    rcases List.mem_append.mp ht with ht | ht
    · exact hfront t ht
    · rw [List.mem_singleton.mp ht] at hend
      cases hend
  refine ⟨⟨front, rfl, fun t ht => (hfront t ht).alone.1⟩, fun t ht hend => (cut t ht hend).alone.2.1, ?_,
    fun t ht => within _ (List.mem_map_of_mem ht), gaps, fun t ht hend => (cut t ht hend).alone.2.2⟩
  obtain ⟨hfront', hlast, hbefore⟩ := List.pairwise_append.mp (List.pairwise_map.mp separate)
  have later {t u : Token} (ht : t ∈ front) (hle : t.span.stop ≤ u.span.start) :
      t.span.start < u.span.start ∧ t.span.stop ≤ u.span.start := by
    have hpos := (hfront t ht).alone.2.1
    omega
  refine List.pairwise_append.mpr ⟨hfront'.imp_of_mem fun ht _ => later ht, List.pairwise_singleton .., ?_⟩
  exact fun t ht u hu => later ht (hbefore t ht u hu)

/-- Comments that end with their line and with the text, characters of several bytes, and an escaped quote. -/
theorem tokenize_faithful_comments :
    let source := "/*é*/a_1// ü\n\"\\\"€\" 1_0<=//"
    ∃ tokens, tokenize source.toList = .ok tokens ∧
      tokens.map Token.span = [⟨6, 9⟩, ⟨15, 22⟩, ⟨23, 26⟩, ⟨26, 28⟩, ⟨30, 30⟩] ∧ Faithful source tokens := by
  intro source
  have computes : ((tokenize source.toList).toOption.any fun tokens =>
      tokens.map Token.span == [⟨6, 9⟩, ⟨15, 22⟩, ⟨23, 26⟩, ⟨26, 28⟩, ⟨30, 30⟩]) = true := by decide +kernel
  cases lexed : tokenize source.toList with
  | error errors =>
    rw [lexed] at computes
    cases computes
  | ok tokens =>
    rw [lexed] at computes
    exact ⟨tokens, rfl, eq_of_beq computes, tokenize_faithful lexed⟩

end Lexer
end ScriptEngine
