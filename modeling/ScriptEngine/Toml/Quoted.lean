import ScriptEngine.Toml.Scalar

/-! Quoted texts: on one line or on many, with escapes or taken literally. -/

namespace ScriptEngine.Toml.Quoted

def quote : Char := '"'

def tick : Char := '\x27'

/-- The character can stand in a comment, or in a text as itself. -/
def isPlain (c : Char) : Bool := c = '\t' || (0x20 ≤ c.toNat && c.toNat ≠ 0x7F)

def afterBreak? : List Char → Option (List Char)
  | '\n' :: cs => some cs
  | '\r' :: '\n' :: cs => some cs
  | _ => none

def isSpace (c : Char) : Bool := c = ' ' || c = '\t'

def skipBreaks : List Char → List Char
  | '\n' :: cs => skipBreaks cs
  | '\r' :: '\n' :: cs => skipBreaks cs
  | c :: cs => if isSpace c then skipBreaks cs else c :: cs
  | [] => []

def codePoint? (width : Nat) (cs : List Char) : Option (Char × List Char) :=
  let digits := cs.take width
  let n := Scalar.numberOf 16 digits
  if digits.length = width ∧ digits.all Scalar.isHexDigit ∧ n.isValidChar then some (Char.ofNat n, cs.drop width)
  else none

def escape? : List Char → Option (Char × List Char)
  | 'b' :: cs => some ('\x08', cs)
  | 't' :: cs => some ('\t', cs)
  | 'n' :: cs => some ('\n', cs)
  | 'f' :: cs => some ('\x0c', cs)
  | 'r' :: cs => some ('\r', cs)
  | '"' :: cs => some ('"', cs)
  | '\\' :: cs => some ('\\', cs)
  | 'u' :: cs => codePoint? 4 cs
  | 'U' :: cs => codePoint? 8 cs
  | _ => none

/-- The rest of a text with escapes on one line. -/
def line : Nat → List Char → Except Fault (List Char × List Char)
  | 0, _ | _, [] => .error .malformed
  | fuel + 1, c :: cs =>
    if c = quote then .ok ([], cs)
    else if c = '\\' then
      match escape? cs with
      | some (e, cs) => (line fuel cs).map fun (text, rest) => (e :: text, rest)
      | none => .error .malformed
    else if isPlain c then (line fuel cs).map fun (text, rest) => (c :: text, rest)
    else .error .malformed

def literalLine (cs : List Char) : Except Fault (List Char × List Char) :=
  match cs.dropWhile fun c => isPlain c && c ≠ tick with
  | c :: rest =>
    if c = tick then .ok (cs.takeWhile fun c => isPlain c && c ≠ tick, rest) else .error .malformed
  | [] => .error .malformed

/-- A run of quotes in a text on many lines: three end the text, and up to two more before them belong
    to it. Gives the quotes that belong to the text, and whether it ends. -/
def quoteRun (mark : Char) (cs : List Char) : List Char × Bool × List Char :=
  let count := min (cs.takeWhile (· = mark)).length 5
  (List.replicate (if 3 ≤ count then count - 3 else count) mark, decide (3 ≤ count), cs.drop count)

def block (mark : Char) (escapes : Bool) : Nat → List Char → Except Fault (List Char × List Char)
  | 0, _ | _, [] => .error .malformed
  | fuel + 1, c :: cs =>
    if c = mark then
      match quoteRun mark (c :: cs) with
      | (quotes, true, rest) => .ok (quotes, rest)
      | (quotes, false, rest) => (block mark escapes fuel rest).map fun (text, rest) => (quotes ++ text, rest)
    else if escapes && c = '\\' then
      match afterBreak? (cs.dropWhile isSpace) with
      | some rest => block mark escapes fuel (skipBreaks rest)
      | none =>
        match escape? cs with
        | some (e, cs) => (block mark escapes fuel cs).map fun (text, rest) => (e :: text, rest)
        | none => .error .malformed
    else
      match afterBreak? (c :: cs) with
      | some rest => (block mark escapes fuel rest).map fun (text, rest) => ('\n' :: text, rest)
      | none =>
        if isPlain c then (block mark escapes fuel cs).map fun (text, rest) => (c :: text, rest)
        else .error .malformed

def readLine : List Char → Except Fault (List Char × List Char)
  | c :: cs =>
    if c = quote then line (cs.length + 1) cs
    else if c = tick then literalLine cs
    else .error .malformed
  | [] => .error .malformed

/-- Read a quoted text of any kind. A line break right after three opening quotes does not count. -/
def read (cs : List Char) : Except Fault (List Char × List Char) :=
  match cs with
  | a :: b :: c :: rest =>
    if a = b ∧ b = c ∧ (a = quote ∨ a = tick) then
      let body := (afterBreak? rest).getD rest
      block a (a = quote) (body.length + 1) body
    else readLine cs
  | _ => readLine cs

end ScriptEngine.Toml.Quoted
