import Mathlib.Data.List.TakeWhile
import ScriptEngine.Token.Lexer

/-! Cutting a text into pieces. `Cuts` says which pieces a text begins with and what is left after them; put together,
    the pieces of a whole text give its tokens, or its faults (`tokenize_of_cuts`). A word and a numeral are one piece
    each, up to where the next character cannot belong to them. -/

namespace ScriptEngine

namespace Lexer

/-! ### Pieces one after the other -/

/-- A text begins with these pieces and goes on with the rest. -/
inductive Cuts : List Char → List Piece → List Char → Prop where
  | nil (rest : List Char) : Cuts rest [] rest
  | cons {c : Char} {cs taken after rest : List Char} {p : Piece} {ps : List Piece} (scanned : scan c cs = ⟨p, taken, after⟩)
      (more : Cuts after ps rest) : Cuts (c :: cs) (p :: ps) rest

theorem Cuts.one {c : Char} {cs taken rest : List Char} {p : Piece} (scanned : scan c cs = ⟨p, taken, rest⟩) :
    Cuts (c :: cs) [p] rest := .cons scanned (.nil rest)

theorem Cuts.append {cs mid rest : List Char} {ps qs : List Piece} (first : Cuts cs ps mid) (second : Cuts mid qs rest) :
    Cuts cs (ps ++ qs) rest := by
  induction first with
  | nil => exact second
  | cons scanned _ ih => exact .cons scanned (ih second)

def Piece.lexeme? : Piece → Option Lexeme
  | lexeme l => some l
  | _ => none

def Piece.fault? : Piece → Option Fault
  | fault f => some f
  | _ => none

theorem Found.cons_lexemes (p : Piece) (span : Span) (found : Found) : (found.cons p span).tokens.map Token.lexeme =
    p.lexeme?.toList ++ found.tokens.map Token.lexeme := by
  cases p with
  | _ => rfl

theorem Found.cons_faults (p : Piece) (span : Span) (found : Found) : (found.cons p span).errors.map Error.fault =
    p.fault?.toList ++ found.errors.map Error.fault := by
  cases p with
  | _ => rfl

/-- The tokens and the errors of a text that consists of these pieces, wherever it begins. -/
theorem pieces_of_cuts {cs : List Char} {ps : List Piece} (cuts : Cuts cs ps []) (offset : Nat) :
    let found : Found := (pieces cs offset).foldr (fun p found => found.cons p.1 p.2) ⟨[], []⟩
    found.tokens.map Token.lexeme = ps.filterMap Piece.lexeme? ++ [.endOfInput] ∧
      found.errors.map Error.fault = ps.filterMap Piece.fault? := by
  generalize hrest : ([] : List Char) = rest at cuts
  induction cuts generalizing offset with
  | nil =>
    subst hrest
    rw [pieces]
    exact ⟨rfl, rfl⟩
  | @cons c cs taken after rest p ps scanned more ih =>
    obtain ⟨htokens, herrors⟩ := ih (offset + byteLength taken) hrest
    rw [pieces, scanned]
    simp only [List.foldr_cons, Found.cons_lexemes, Found.cons_faults, htokens, herrors]
    cases p with
    | _ => exact ⟨rfl, rfl⟩

/-- A text that consists of these pieces is split into tokens, or everything in it is reported that is no token. -/
theorem tokenize_of_cuts {cs : List Char} {ps : List Piece} (cuts : Cuts cs ps []) :
    (ps.filterMap Piece.fault? = [] → ∃ tokens, tokenize cs = .ok tokens ∧
      tokens.map Token.lexeme = ps.filterMap Piece.lexeme? ++ [.endOfInput]) ∧
    (ps.filterMap Piece.fault? ≠ [] → ∃ errors, tokenize cs = .error errors ∧
      errors.map Error.fault = ps.filterMap Piece.fault?) := by
  obtain ⟨htokens, herrors⟩ := pieces_of_cuts cuts 0
  rw [← herrors]
  constructor
  · intro hnone
    refine ⟨_, ?_, htokens⟩
    rw [tokenize, found, List.map_eq_nil_iff.mp hnone]
    rfl
  · intro hsome
    refine ⟨_, ?_, rfl⟩
    rw [tokenize, found, if_neg]
    rw [List.isEmpty_iff, ← List.map_eq_nil_iff (f := Error.fault)]
    exact hsome

/-! ### Words -/

/-- A character that can be seen is no blank space. -/
theorem isBlank_of_visible {c : Char} (h : 33 ≤ c.toNat ∧ c.toNat ≤ 126) : Text.isBlank c = false := by
  refine List.any_eq_false.mpr fun r hr => ?_
  rw [Bool.and_eq_true, decide_eq_true_eq, decide_eq_true_eq]
  simp only [Text.blankRanges, List.mem_cons, List.not_mem_nil, or_false] at hr
  rcases hr with rfl | rfl | rfl | rfl | rfl | rfl | rfl | rfl | rfl | rfl
  all_goals
    dsimp only
    omega

theorem visible_of_isWordStart {c : Char} (h : isWordStart c = true) : 33 ≤ c.toNat ∧ c.toNat ≤ 126 := by
  rcases (Bool.or_eq_true ..).mp h with h | h
  · rcases (Bool.or_eq_true ..).mp h with h | h
    · have h : 65 ≤ c.toNat ∧ c.toNat ≤ 90 := of_decide_eq_true h
      omega
    · obtain ⟨h₁, h₂⟩ := (Bool.and_eq_true ..).mp h
      have h₁ : 97 ≤ c.toNat := of_decide_eq_true h₁
      have h₂ : c.toNat ≤ 122 := of_decide_eq_true h₂
      omega
  · rw [of_decide_eq_true h]
    decide

/-- The first characters of a text have a property, and the next one does not. -/
theorem takeWhile_of_ends {p : Char → Bool} {cs rest : List Char} (hcs : ∀ d ∈ cs, p d = true)
    (hrest : ∀ d ∈ rest.head?, p d = false) :
    (cs ++ rest).takeWhile p = cs ∧ (cs ++ rest).dropWhile p = rest := by
  rw [List.takeWhile_append_of_pos hcs, List.dropWhile_append_of_pos hcs]
  cases rest with
  | nil => exact ⟨List.append_nil cs, rfl⟩
  | cons d rest =>
    have hd := hrest d rfl
    rw [List.takeWhile_cons_of_neg (by rw [hd]; exact Bool.false_ne_true), List.append_nil,
      List.dropWhile_cons_of_neg (by rw [hd]; exact Bool.false_ne_true)]
    exact ⟨rfl, rfl⟩

theorem scan_word (c : Char) (cs : List Char) {rest : List Char} (hc : isWordStart c = true)
    (hcs : ∀ d ∈ c :: cs, isWordPart d = true) (hrest : ∀ d ∈ rest.head?, isWordPart d = false) :
    scan c (cs ++ rest) = ⟨.lexeme (.ofWord (String.ofList (c :: cs))), c :: cs, rest⟩ := by
  obtain ⟨htake, hdrop⟩ := takeWhile_of_ends hcs hrest
  rw [List.cons_append] at htake hdrop
  unfold scan
  split
  · exact absurd hc (by decide)
  · exact absurd hc (by decide)
  · rw [isBlank_of_visible (visible_of_isWordStart hc), if_neg Bool.false_ne_true, if_pos hc, word, htake, hdrop]

/-! ### Numerals -/

theorem digit_range {c : Char} (h : c.isDigit = true) : 48 ≤ c.toNat ∧ c.toNat ≤ 57 := by
  obtain ⟨h₁, h₂⟩ := (Bool.and_eq_true ..).mp h
  exact ⟨of_decide_eq_true h₁, of_decide_eq_true h₂⟩

theorem isWordStart_of_isDigit {c : Char} (h : c.isDigit = true) : isWordStart c = false := by
  have := digit_range h
  refine Bool.eq_false_iff.mpr fun hstart => ?_
  rcases (Bool.or_eq_true ..).mp hstart with h | h
  · rcases (Bool.or_eq_true ..).mp h with h | h
    · have h : 65 ≤ c.toNat ∧ c.toNat ≤ 90 := of_decide_eq_true h
      omega
    · obtain ⟨h₁, -⟩ := (Bool.and_eq_true ..).mp h
      have h₁ : 97 ≤ c.toNat := of_decide_eq_true h₁
      omega
  · rw [of_decide_eq_true h] at this
    exact absurd this (by decide)

/-- The character cannot belong to a number that stands before it. -/
def EndsNumber (c : Char) : Prop := c.isDigit = false ∧ c ≠ '_' ∧ c ≠ '.' ∧ c ≠ 'e' ∧ c ≠ 'E'

/-- Digits alone are an integer. -/
theorem scan_digits {c : Char} {cs rest : List Char} (hdigits : ∀ d ∈ c :: cs, d.isDigit = true)
    (hrest : ∀ d ∈ rest.head?, EndsNumber d) :
    scan c (cs ++ rest) = ⟨numberPiece false (c :: cs), c :: cs, rest⟩ := by
  have hc := hdigits c (.head _)
  have := digit_range hc
  have ends (d : Char) (hd : d ∈ rest.head?) : (d.isDigit || decide (d = '_')) = false := by
    rw [(hrest d hd).1, Bool.false_or, decide_eq_false (hrest d hd).2.1]
  obtain ⟨htake, hdrop⟩ := takeWhile_of_ends (fun d hd => by rw [hdigits d hd, Bool.true_or]) ends
  rw [List.cons_append] at htake hdrop
  have places : decimals rest = ([], rest) := by
    cases rest with
    | nil => rfl
    | cons d rest =>
      unfold decimals
      split
      · rename_i heq
        cases heq
        exact absurd rfl (hrest '.' rfl).2.2.1
      · rfl
  have power : exponent rest = ([], rest) := by
    cases rest with
    | nil => rfl
    | cons d rest =>
      obtain ⟨-, -, -, hlower, hupper⟩ := hrest d rfl
      rw [exponent, decide_eq_false hlower, decide_eq_false hupper]
      rfl
  unfold scan
  split
  · exact absurd hc (by decide)
  · exact absurd hc (by decide)
  · rw [isBlank_of_visible (by omega), if_neg Bool.false_ne_true, isWordStart_of_isDigit hc, if_neg Bool.false_ne_true,
      if_pos hc, number]
    dsimp only
    rw [htake, hdrop, places]
    dsimp only
    rw [power, List.append_nil, List.append_nil]
    rfl

end Lexer

namespace Decimal

/-- Digits are read as the number that they write, unless it is too great. -/
theorem readMagnitude_digits {limit : Nat} {tooBig : IntegerFault} {cs : List Char} (hdigits : ∀ c ∈ cs, c.isDigit = true)
    {value : Nat} (hvalue : value ≤ limit) : readMagnitude limit tooBig cs value =
      if Nat.ofDigitChars 10 cs value ≤ limit then .ok (Nat.ofDigitChars 10 cs value) else .error tooBig := by
  induction cs generalizing value with
  | nil => rw [readMagnitude, Nat.ofDigitChars_nil, if_pos hvalue]
  | cons c cs ih =>
    obtain ⟨hc, hcs⟩ := List.forall_mem_cons.mp hdigits
    rw [readMagnitude, digitValue?, if_pos hc, Nat.ofDigitChars_cons, Nat.mul_comm 10]
    dsimp only
    by_cases hle : value * 10 + (c.toNat - '0'.toNat) ≤ limit
    · rw [if_pos hle, ih hcs hle]
    · have hmore : value * 10 + (c.toNat - '0'.toNat) ≤ Nat.ofDigitChars 10 cs (value * 10 + (c.toNat - '0'.toNat)) := by
        rw [Nat.ofDigitChars_eq_ofDigitChars_zero]
        exact Nat.le_add_right_of_le (Nat.le_mul_of_pos_left _ (Nat.pow_pos (by decide)))
      rw [if_neg hle, if_neg fun h => hle (Nat.le_trans hmore h)]

/-- The numeral of a number is read as that number, if it fits. -/
theorem readInteger_toDigits (n : Nat) : readInteger (Nat.toDigits 10 n) =
    if n ≤ greatestInteger then .ok (.ofNat n) else .error .tooLarge := by
  have hdigits (c : Char) (hc : c ∈ Nat.toDigits 10 n) : c.isDigit = true :=
    Nat.isDigit_of_mem_toDigits (by decide) (by decide) hc
  have unsigned : readUnsigned (Nat.toDigits 10 n) = if n ≤ greatestInteger then .ok (.ofNat n) else .error .tooLarge := by
    rw [readUnsigned, List.isEmpty_eq_false_iff.mpr Nat.toDigits_ne_nil, if_neg Bool.false_ne_true,
      readMagnitude_digits hdigits (Nat.zero_le _), Nat.ofDigitChars_ten_toDigits]
    split
    · rfl
    · rfl
  rw [← unsigned]
  cases hcs : Nat.toDigits 10 n with
  | nil => exact absurd hcs Nat.toDigits_ne_nil
  | cons c cs =>
    rw [hcs] at hdigits
    have hc := hdigits c (.head _)
    unfold readInteger
    split
    · rename_i heq
      cases heq
    · rename_i heq
      cases heq
      exact absurd hc (by decide)
    · rename_i heq
      cases heq
      exact absurd hc (by decide)
    · rfl

end Decimal

/-- The numeral of a number is an integer of 64 bits, or too large for one. -/
theorem Lexer.numberPiece_toDigits (n : Nat) : numberPiece false (Nat.toDigits 10 n) =
    if n ≤ Decimal.greatestInteger then .lexeme (.integer (.ofNat n)) else .fault .bigInteger := by
  have hkeep : (Nat.toDigits 10 n).filter (· ≠ '_') = Nat.toDigits 10 n :=
    List.filter_eq_self.mpr fun c hc => decide_eq_true fun h => Nat.underscore_not_in_toDigits (h ▸ hc)
  rw [numberPiece, hkeep, if_neg Bool.false_ne_true, Decimal.readInteger_toDigits]
  by_cases hle : n ≤ Decimal.greatestInteger
  · rw [if_pos hle, if_pos hle]
  · rw [if_neg hle, if_neg hle]

/-- The numeral of a number is one piece, up to where the next character cannot belong to it. -/
theorem Lexer.cuts_toDigits (n : Nat) {rest : List Char} (hrest : ∀ d ∈ rest.head?, EndsNumber d) :
    Cuts (Nat.toDigits 10 n ++ rest) [if n ≤ Decimal.greatestInteger then .lexeme (.integer (.ofNat n)) else .fault .bigInteger]
      rest := by
  have hdigits (c : Char) (hc : c ∈ Nat.toDigits 10 n) : c.isDigit = true :=
    Nat.isDigit_of_mem_toDigits (by decide) (by decide) hc
  rw [← numberPiece_toDigits]
  cases hcs : Nat.toDigits 10 n with
  | nil => exact absurd hcs Nat.toDigits_ne_nil
  | cons c cs =>
    rw [hcs] at hdigits
    exact .one (scan_digits hdigits hrest)

end ScriptEngine
