import ScriptEngine.Proofs.SourceNames
import ScriptEngine.Proofs.TextPieces

/-! Writing tokens as a text. Tokens that are written one after the other, with a space between them, are read again as
    what they were (`Lexer.tokenize_printed`). Each of them is one piece of the text, up to the space or the end
    (`Lexeme.cuts_printed`): a space cannot belong to a word, a numeral or a mark, and inside of a text nothing ends
    it but a quote without a backslash. -/

namespace ScriptEngine
open Lexer

namespace Lexeme

/-! ### Writing -/

/-- The characters of a text between its quotes: a backslash stands before every quote and every backslash. -/
def escaped : List Char → List Char
  | [] => []
  | c :: cs => if c = '"' ∨ c = '\\' then '\\' :: c :: escaped cs else c :: escaped cs

/-- A token as it is written. Numbers with a fraction and the end of input have no spelling here. -/
def printed : Lexeme → String
  | word name => name
  | integer value => toString value
  | text content => "\"" ++ String.ofList (escaped content.toList) ++ "\""
  | keyword k => k.spelling
  | mark m => m.spelling
  | float _ | endOfInput => ""

/-- The token has a spelling: words are no keywords, and integers have no sign. -/
def Printable : Lexeme → Prop
  | word name => IsWord name
  | integer value => 0 ≤ value
  | text _ | keyword _ | mark _ => True
  | float _ | endOfInput => False

/-- Tokens as they are written, with a space between any two of them. -/
def printedAll (ls : List Lexeme) : String := " ".intercalate (ls.map printed)

/-! ### Pieces -/

/-- What stands behind a token: the end of the text, or a space. -/
def Spaced (rest : List Char) : Prop := ∀ c ∈ rest.head?, c = ' '

theorem spaced_cases {rest : List Char} (h : Spaced rest) : rest = [] ∨ ∃ cs, rest = ' ' :: cs := by
  cases rest with
  | nil => exact .inl rfl
  | cons c cs =>
    obtain rfl := h c rfl
    exact .inr ⟨cs, rfl⟩

theorem cuts_word {name : String} (parts : ∀ c ∈ name.toList, isWordPart c = true)
    (begins : ∃ c cs, name.toList = c :: cs ∧ isWordStart c = true) {rest : List Char} (hrest : Spaced rest) :
    Cuts (name.toList ++ rest) [.lexeme (ofWord name)] rest := by
  have ends (c : Char) (hc : c ∈ rest.head?) : isWordPart c = false := by
    rw [hrest c hc]
    rfl
  obtain ⟨c, cs, hname, hstart⟩ := begins
  rw [hname] at parts ⊢
  have scanned := scan_word c cs hstart parts ends
  rw [← hname, String.ofList_toList] at scanned
  exact .one scanned

theorem cuts_integer {value : Int64} (h : 0 ≤ value) {rest : List Char} (hrest : Spaced rest) :
    Cuts ((toString value).toList ++ rest) [.lexeme (.integer value)] rest := by
  have hnonneg : 0 ≤ value.toInt := Int64.le_iff_toInt_le.mp h
  have hfits : value.toInt.toNat ≤ Decimal.greatestInteger := by
    have := Int64.toInt_lt value
    have hgreatest : Decimal.greatestInteger = 2 ^ 63 - 1 := rfl
    omega
  have hvalue : Int64.ofNat value.toInt.toNat = value := by
    rw [← Int64.ofInt_eq_ofNat, Int.toNat_of_nonneg hnonneg, Int64.ofInt_toInt]
  have htext : (toString value).toList = Nat.toDigits 10 value.toInt.toNat := by
    show value.toInt.repr.toList = _
    rw [Int.repr_eq_if, if_pos hnonneg, Nat.toList_repr]
  have ends (c : Char) (hc : c ∈ rest.head?) : EndsNumber c := by
    rw [hrest c hc]
    exact ⟨by decide, by decide, by decide, by decide, by decide⟩
  have numeral := cuts_toDigits value.toInt.toNat ends
  rw [if_pos hfits, hvalue] at numeral
  rw [htext]
  exact numeral

/-- What stands between the quotes of a text is read as the characters of the text. -/
theorem textBody_escaped (content rest : List Char) :
    textBody (escaped content ++ '"' :: rest) = some ⟨content, escaped content ++ ['"'], rest⟩ := by
  induction content with
  | nil => rfl
  | cons c cs ih =>
    by_cases hc : c = '"' ∨ c = '\\'
    · have hsame : unescape c = c := by rcases hc with rfl | rfl <;> rfl
      simp [escaped, hc, textBody, ih, hsame]
    · obtain ⟨hquote, hslash⟩ := not_or.mp hc
      simp [escaped, textBody, ih, hquote, hslash]

theorem cuts_text (content : String) (rest : List Char) :
    Cuts ((printed (.text content)).toList ++ rest) [.lexeme (.text content)] rest := by
  have htext : (printed (.text content)).toList ++ rest = '"' :: (escaped content.toList ++ '"' :: rest) := by
    simp [printed]
  have scanned : scan '"' (escaped content.toList ++ '"' :: rest) = Lexer.text (escaped content.toList ++ '"' :: rest) :=
    rfl
  rw [Lexer.text, textBody_escaped] at scanned
  simp only [String.ofList_toList] at scanned
  rw [htext]
  exact .one scanned

theorem cuts_keyword (k : Keyword) {rest : List Char} (hrest : Spaced rest) :
    Cuts (k.spelling.toList ++ rest) [.lexeme (.keyword k)] rest := by
  have reads : ofWord k.spelling = .keyword k := by cases k <;> rfl
  rw [← reads]
  refine cuts_word (fun c hc => ?_) ?_ hrest
  · refine List.all_eq_true.mp (?_ : k.spelling.toList.all isWordPart = true) c hc
    cases k <;> rfl
  · cases k <;> exact ⟨_, _, rfl, rfl⟩

theorem cuts_mark (m : Mark) {rest : List Char} (hrest : Spaced rest) :
    Cuts (m.spelling.toList ++ rest) [.lexeme (.mark m)] rest := by
  rcases spaced_cases hrest with rfl | ⟨cs, rfl⟩
  all_goals cases m <;> exact .one rfl

/-- A token that is written is one piece of the text, if nothing or a space stands behind it. -/
theorem cuts_printed {l : Lexeme} (h : l.Printable) {rest : List Char} (hrest : Spaced rest) :
    Cuts (l.printed.toList ++ rest) [.lexeme l] rest := by
  cases l with
  | word name =>
    have word := cuts_word h.parts h.begins hrest
    rwa [ofWord, h.free] at word
  | integer value => exact cuts_integer h hrest
  | text content => exact cuts_text content rest
  | keyword k => exact cuts_keyword k hrest
  | mark m => exact cuts_mark m hrest
  | float value | endOfInput => exact h.elim

/-! ### Texts -/

/-- The pieces of a written text are its tokens and the spaces between them. -/
theorem cuts_printedAll {ls : List Lexeme} (h : ∀ l ∈ ls, l.Printable) : ∃ ps, Cuts (printedAll ls).toList ps [] ∧
    ps.filterMap Piece.lexeme? = ls ∧ ps.filterMap Piece.fault? = [] := by
  induction ls with
  | nil => exact ⟨[], .nil [], rfl, rfl⟩
  | cons l ls ih =>
    obtain ⟨hl, hls⟩ := List.forall_mem_cons.mp h
    cases ls with
    | nil =>
      have ended : Spaced [] := nofun
      have last := cuts_printed hl ended
      rw [List.append_nil] at last
      exact ⟨_, last, rfl, rfl⟩
    | cons l' ls =>
      obtain ⟨ps, cuts, hlexemes, hfaults⟩ := ih hls
      have htext : (printedAll (l :: l' :: ls)).toList = l.printed.toList ++ ' ' :: (printedAll (l' :: ls)).toList := by
        simp [printedAll, String.intercalate_cons_cons]
      have space : Cuts (' ' :: (printedAll (l' :: ls)).toList) (.skipped :: ps) [] := .cons rfl cuts
      have spaced : Spaced (' ' :: (printedAll (l' :: ls)).toList) := fun c hc => (Option.some.inj hc).symm
      have first := cuts_printed hl spaced
      refine ⟨.lexeme l :: .skipped :: ps, ?_, ?_, hfaults⟩
      · rw [htext]
        exact first.append space
      · show l :: ps.filterMap Piece.lexeme? = l :: l' :: ls
        rw [hlexemes]

end Lexeme

/-- Tokens that are written with single spaces between them are read again, and the end of input behind them. -/
theorem Lexer.tokenize_printed {ls : List Lexeme} (h : ∀ l ∈ ls, l.Printable) :
    ∃ tokens, tokenize (Lexeme.printedAll ls).toList = .ok tokens ∧ tokens.map Token.lexeme = ls ++ [.endOfInput] := by
  obtain ⟨ps, cuts, hlexemes, hfaults⟩ := Lexeme.cuts_printedAll h
  obtain ⟨tokens, htokens, hread⟩ := (tokenize_of_cuts cuts).1 hfaults
  rw [hlexemes] at hread
  exact ⟨tokens, htokens, hread⟩

/-- A text that holds a quote, a backslash, a line break and the beginning of a comment; two slashes, marks that
    begin other marks, a word that begins with a keyword, and the greatest integer. -/
theorem Lexer.tokenize_printed_mixed :
    let ls : List Lexeme := [.text "a\"\\\n/*", .mark .slash, .mark .slash, .mark .eq, .mark .eqEq, .mark .lt,
      .keyword .cond, .word "if_", .integer 9223372036854775807]
    (∀ l ∈ ls, l.Printable) ∧ Lexeme.printedAll ls = "\"a\\\"\\\\\n/*\" / / = == < if if_ 9223372036854775807" ∧
      ∃ tokens, tokenize (Lexeme.printedAll ls).toList = .ok tokens ∧ tokens.map Token.lexeme = ls ++ [.endOfInput] := by
  intro ls
  have word : IsWord "if_" := ⟨List.all_eq_true.mp (by decide), ⟨'i', ['f', '_'], rfl, rfl⟩, by decide⟩
  have greatest : (0 : Int64) ≤ 9223372036854775807 := by decide
  have printable : ∀ l ∈ ls, l.Printable := by
    simp only [ls, List.forall_mem_cons, Lexeme.Printable, true_and]
    exact ⟨word, greatest, nofun⟩
  exact ⟨printable, by decide +kernel, tokenize_printed printable⟩

end ScriptEngine
