import ScriptEngine.Token
import ScriptEngine.Text.Blank
import ScriptEngine.Decimal.Reader

/-! Splitting a source text into tokens.

    `scan` cuts one piece off a non-empty text: blank space or a comment, a token, or something
    that is neither. The pieces of a text, put together again, are the text; `scan_joins` says so
    of one piece, and the loop over all pieces ends because no piece is empty. -/

namespace ScriptEngine.Lexer

inductive Fault where
  | openComment
  | openText
  | badFloat
  | bigInteger
  | lonely (expected : Mark)
  | unexpected (c : Char)
  deriving Repr, DecidableEq

def Fault.message : Fault → String
  | openComment => "Unterminated block comment"
  | openText => "Unterminated string literal"
  | badFloat => "Invalid float literal"
  | bigInteger => "Integer literal does not fit in 64 bits"
  | lonely expected => "Expected `" ++ expected.spelling ++ "`"
  | unexpected c => "Unexpected character '" ++ c.toString ++ "'"

inductive Piece where
  | skipped
  | lexeme (l : Lexeme)
  | fault (f : Fault)

/-- A piece, the characters it takes, and what is left of the text. -/
structure Cut where
  piece : Piece
  taken : List Char
  rest : List Char

/-! ### Comments -/

/-- The part of a block comment up to and with its end mark, and the text after it; `none` when the
    text ends first. -/
def blockEnd : List Char → Option (List Char × List Char)
  | [] => none
  | '*' :: '/' :: cs => some (['*', '/'], cs)
  | c :: cs => (blockEnd cs).map fun (taken, rest) => (c :: taken, rest)

def blockComment (cs : List Char) : Cut :=
  match blockEnd cs with
  | some (taken, rest) => ⟨.skipped, '/' :: '*' :: taken, rest⟩
  | none => ⟨.fault .openComment, '/' :: '*' :: cs, []⟩

def lineComment (cs : List Char) : Cut :=
  ⟨.skipped, '/' :: '/' :: cs.takeWhile (· ≠ '\n'), cs.dropWhile (· ≠ '\n')⟩

/-! ### Words and numbers -/

def isWordStart (c : Char) : Bool := c.isAlpha || c = '_'

def isWordPart (c : Char) : Bool := c.isAlphanum || c = '_'

def word (cs : List Char) : Cut :=
  let name := cs.takeWhile isWordPart
  ⟨.lexeme (.ofWord (String.ofList name)), name, cs.dropWhile isWordPart⟩

/-- Decimals: a point with at least one digit after it. -/
def decimals : List Char → List Char × List Char
  | '.' :: d :: cs =>
    if d.isDigit then ('.' :: d :: cs.takeWhile Char.isDigit, cs.dropWhile Char.isDigit)
    else ([], '.' :: d :: cs)
  | cs => ([], cs)

def exponentSign : List Char → List Char × List Char
  | '+' :: cs => (['+'], cs)
  | '-' :: cs => (['-'], cs)
  | cs => ([], cs)

/-- An exponent: its letter, an optional sign, and digits, of which there may be none here. -/
def exponent : List Char → List Char × List Char
  | [] => ([], [])
  | c :: cs =>
    if c = 'e' || c = 'E' then
      let (sign, digits) := exponentSign cs
      (c :: sign ++ digits.takeWhile Char.isDigit, digits.dropWhile Char.isDigit)
    else ([], c :: cs)

def numberPiece (isFloat : Bool) (taken : List Char) : Piece :=
  let text := taken.filter (· ≠ '_')
  if isFloat then
    match Decimal.readFloat text with
    | .ok value => .lexeme (.float value)
    | .error _ => .fault .badFloat
  else
    match Decimal.readInteger text with
    | .ok value => .lexeme (.integer value)
    | .error _ => .fault .bigInteger

def number (cs : List Char) : Cut :=
  let isPart := fun c : Char => c.isDigit || c = '_'
  let whole := cs.takeWhile isPart
  let (places, afterPlaces) := decimals (cs.dropWhile isPart)
  let (power, rest) := exponent afterPlaces
  let taken := whole ++ places ++ power
  ⟨numberPiece (!places.isEmpty || !power.isEmpty) taken, taken, rest⟩

/-! ### Texts -/

def unescape : Char → Char
  | 'n' => '\n'
  | 'r' => '\r'
  | 't' => '\t'
  | c => c

/-- The inside of a text up to and with its closing quote. -/
structure TextBody where
  content : List Char
  taken : List Char
  rest : List Char

/-- Read a text after its opening quote; `none` when the source ends first. -/
def textBody : List Char → Option TextBody
  | [] => none
  | '"' :: cs => some ⟨[], ['"'], cs⟩
  | '\\' :: [] => none
  | '\\' :: c :: cs => (textBody cs).map fun b => ⟨unescape c :: b.content, '\\' :: c :: b.taken, b.rest⟩
  | c :: cs => (textBody cs).map fun b => ⟨c :: b.content, c :: b.taken, b.rest⟩

def text (cs : List Char) : Cut :=
  match textBody cs with
  | some b => ⟨.lexeme (.text (String.ofList b.content)), '"' :: b.taken, b.rest⟩
  | none => ⟨.fault .openText, '"' :: cs, []⟩

/-! ### Marks -/

/-- The mark of one character that no other mark starts with. -/
def singleMark? : Char → Option Mark
  | '(' => some .openParen
  | ')' => some .closeParen
  | '\x7b' => some .openBrace
  | '\x7d' => some .closeBrace
  | '[' => some .openBracket
  | ']' => some .closeBracket
  | ',' => some .comma
  | ';' => some .semicolon
  | '%' => some .percent
  | '+' => some .plus
  | '-' => some .minus
  | '*' => some .star
  | '/' => some .slash
  | _ => none

/-- A mark that is its first character twice and nothing alone. -/
def doubledMark? : Char → Option Mark
  | ':' => some .colonColon
  | '&' => some .andAnd
  | '|' => some .orOr
  | _ => none

/-- A mark of one character and the mark it makes with an equals sign after it. -/
def equalsMark? : Char → Option (Mark × Mark)
  | '!' => some (.bang, .bangEq)
  | '=' => some (.eq, .eqEq)
  | '<' => some (.lt, .ltEq)
  | '>' => some (.gt, .gtEq)
  | _ => none

/-- Cut one or two characters, two if the second one is `second`. -/
def oneOrTwo (first second : Char) (one two : Piece) : List Char → Cut
  | [] => ⟨one, [first], []⟩
  | c :: cs => if c = second then ⟨two, [first, c], cs⟩ else ⟨one, [first], c :: cs⟩

def mark (c : Char) (cs : List Char) : Cut :=
  match singleMark? c with
  | some m => ⟨.lexeme (.mark m), [c], cs⟩
  | none =>
    match doubledMark? c with
    | some m => oneOrTwo c c (.fault (.lonely m)) (.lexeme (.mark m)) cs
    | none =>
      match equalsMark? c with
      | some (one, two) => oneOrTwo c '=' (.lexeme (.mark one)) (.lexeme (.mark two)) cs
      | none => ⟨.fault (.unexpected c), [c], cs⟩

/-! ### Pieces -/

/-- Cut the first piece off a text that starts with `c`. -/
def scan (c : Char) (cs : List Char) : Cut :=
  match c, cs with
  | '/', '/' :: rest => lineComment rest
  | '/', '*' :: rest => blockComment rest
  | c, cs =>
    if Text.isBlank c then ⟨.skipped, [c], cs⟩
    else if isWordStart c then word (c :: cs)
    else if c.isDigit then number (c :: cs)
    else if c = '"' then text cs
    else mark c cs

theorem blockEnd_joins {cs taken rest : List Char} (h : blockEnd cs = some (taken, rest)) : taken ++ rest = cs := by
  fun_induction blockEnd cs generalizing taken rest with
  | case1 => simp at h
  | case2 cs => simp at h; obtain ⟨rfl, rfl⟩ := h; simp
  | case3 c cs _ ih =>
    obtain ⟨⟨t, r⟩, found, same⟩ := Option.map_eq_some_iff.mp h
    simp at same
    obtain ⟨rfl, rfl⟩ := same
    simp [ih found]

theorem textBody_joins {cs : List Char} {b : TextBody} (h : textBody cs = some b) : b.taken ++ b.rest = cs := by
  fun_induction textBody cs generalizing b with
  | case1 => simp at h
  | case2 cs => simp at h; subst h; simp
  | case3 => simp at h
  | case4 c cs ih =>
    obtain ⟨inner, found, rfl⟩ := Option.map_eq_some_iff.mp h
    simp [ih found]
  | case5 c cs _ _ _ ih =>
    obtain ⟨inner, found, rfl⟩ := Option.map_eq_some_iff.mp h
    simp [ih found]

theorem decimals_joins (cs : List Char) : (decimals cs).1 ++ (decimals cs).2 = cs := by
  fun_cases decimals cs <;> simp_all [List.takeWhile_append_dropWhile]

theorem exponentSign_joins (cs : List Char) : (exponentSign cs).1 ++ (exponentSign cs).2 = cs := by
  fun_cases exponentSign cs <;> simp

theorem exponent_joins (cs : List Char) : (exponent cs).1 ++ (exponent cs).2 = cs := by
  cases cs with
  | nil => rfl
  | cons c cs =>
    by_cases letter : (c = 'e' || c = 'E') = true
    · simp [exponent, letter, List.takeWhile_append_dropWhile, exponentSign_joins cs]
    · simp [exponent, letter]

theorem oneOrTwo_joins (first second : Char) (one two : Piece) (cs : List Char) :
    (oneOrTwo first second one two cs).taken ++ (oneOrTwo first second one two cs).rest = first :: cs := by
  cases cs with
  | nil => rfl
  | cons c cs => by_cases same : c = second <;> simp [oneOrTwo, same]

theorem mark_joins (c : Char) (cs : List Char) : (mark c cs).taken ++ (mark c cs).rest = c :: cs := by
  unfold mark
  split
  · rfl
  · split
    · exact oneOrTwo_joins ..
    · split
      · exact oneOrTwo_joins ..
      · rfl

theorem number_joins (cs : List Char) : (number cs).taken ++ (number cs).rest = cs := by
  unfold number
  simp only [List.append_assoc, exponent_joins, decimals_joins, List.takeWhile_append_dropWhile]

theorem text_joins (cs : List Char) : (text cs).taken ++ (text cs).rest = '"' :: cs := by
  unfold text
  split
  · next b found => simp [textBody_joins found]
  · simp

theorem blockComment_joins (cs : List Char) :
    (blockComment cs).taken ++ (blockComment cs).rest = '/' :: '*' :: cs := by
  unfold blockComment
  split
  · next taken rest found => simp [blockEnd_joins found]
  · simp

/-- A piece takes the start of the text and leaves the rest. -/
theorem scan_joins (c : Char) (cs : List Char) : (scan c cs).taken ++ (scan c cs).rest = c :: cs := by
  unfold scan
  split
  · simp [lineComment, List.takeWhile_append_dropWhile]
  · exact blockComment_joins ..
  · split
    · rfl
    · split
      · simp [word, List.takeWhile_append_dropWhile]
      · split
        · exact number_joins ..
        · split
          · next h => subst h; exact text_joins ..
          · exact mark_joins ..

theorem word_taken_ne_nil {c : Char} {cs : List Char} (h : isWordStart c = true) : (word (c :: cs)).taken ≠ [] := by
  have part : isWordPart c = true := by
    simp only [isWordStart, isWordPart, Char.isAlphanum, Bool.or_eq_true] at *
    rcases h with h | h
    · exact .inl (.inl h)
    · exact .inr h
  simp [word, part]

theorem number_taken_ne_nil {c : Char} {cs : List Char} (h : c.isDigit = true) : (number (c :: cs)).taken ≠ [] := by
  simp [number, h]

theorem mark_taken_ne_nil (c : Char) (cs : List Char) : (mark c cs).taken ≠ [] := by
  have two (second : Char) (one both : Piece) : (oneOrTwo c second one both cs).taken ≠ [] := by
    cases cs with
    | nil => simp [oneOrTwo]
    | cons d ds => by_cases same : d = second <;> simp [oneOrTwo, same]
  unfold mark
  split
  · simp
  · split
    · apply two
    · split
      · apply two
      · simp

/-- No piece is empty. -/
theorem scan_taken_ne_nil (c : Char) (cs : List Char) : (scan c cs).taken ≠ [] := by
  unfold scan
  split
  · simp [lineComment]
  · unfold blockComment; split <;> simp
  · split
    · simp
    · split
      · next h => exact word_taken_ne_nil h
      · split
        · next h => exact number_taken_ne_nil h
        · split
          · unfold text; split <;> simp
          · apply mark_taken_ne_nil

theorem scan_rest_length (c : Char) (cs : List Char) : (scan c cs).rest.length < (c :: cs).length := by
  have joined := congrArg List.length (scan_joins c cs)
  have nonempty := List.length_pos_iff.mpr (scan_taken_ne_nil c cs)
  simp only [List.length_append] at joined
  omega

/-! ### The whole text -/

structure Error where
  fault : Fault
  span : Span
  deriving Repr, DecidableEq

structure Found where
  tokens : List Token
  errors : List Error

namespace Found

/-- Put a piece in front of what was found after it. -/
def cons (piece : Piece) (span : Span) (found : Found) : Found :=
  match piece with
  | .skipped => found
  | .lexeme l => { found with tokens := ⟨l, span⟩ :: found.tokens }
  | .fault f => { found with errors := ⟨f, span⟩ :: found.errors }

end Found

/-- All pieces of a text that begins at byte `offset`. -/
def pieces (cs : List Char) (offset : Nat) : List (Piece × Span) :=
  match cs with
  | [] => [(.lexeme .endOfInput, ⟨offset, offset⟩)]
  | c :: cs =>
    let cut := scan c cs
    let stop := offset + byteLength cut.taken
    (cut.piece, ⟨offset, stop⟩) :: pieces cut.rest stop
termination_by cs.length
decreasing_by exact scan_rest_length c cs

def found (cs : List Char) : Found :=
  (pieces cs 0).foldr (fun p found => found.cons p.1 p.2) ⟨[], []⟩

/-- The tokens of a text, the end of input last, or everything in it that is no token. -/
def tokenize (cs : List Char) : Except (List Error) (List Token) :=
  let found := found cs
  if found.errors.isEmpty then .ok found.tokens else .error found.errors

end ScriptEngine.Lexer
