import ScriptEngine.Decimal.Reader
import ScriptEngine.Toml

/-! Unquoted values: integers, and those that are only recognised, which are booleans, floating-point
    numbers, dates and times. -/

namespace ScriptEngine.Toml.Scalar

/-- One or more of the characters, with single underscores between them. -/
def underscored (p : Char → Bool) : List Char → Bool
  | [] => false
  | [c] => p c
  | c :: '_' :: d :: rest => p c && underscored p (d :: rest)
  | c :: rest => p c && underscored p rest

def dropSign : List Char → List Char
  | '+' :: cs | '-' :: cs => cs
  | cs => cs

/-! ### Integers -/

def digitValue (c : Char) : Nat :=
  if c.isDigit then c.toNat - '0'.toNat
  else if 'a' ≤ c ∧ c ≤ 'f' then c.toNat - 'a'.toNat + 10
  else if 'A' ≤ c ∧ c ≤ 'F' then c.toNat - 'A'.toNat + 10
  else 16

def isHexDigit (c : Char) : Bool := digitValue c < 16

/-- The number that digits stand for; underscores do not count. -/
def numberOf (radix : Nat) (cs : List Char) : Nat :=
  (cs.filter (· ≠ '_')).foldl (fun n c => radix * n + digitValue c) 0

/-- Digits without a sign; only a lone zero starts with zero. -/
def isWhole (cs : List Char) : Bool := cs = ['0'] || (underscored Char.isDigit cs && cs.head? ≠ some '0')

def radixNumber? (radix : Nat) (cs : List Char) : Option Nat :=
  if underscored (digitValue · < radix) cs then some (numberOf radix cs) else none

/-- The number of an integer, which may not fit its word. -/
def integer? (cs : List Char) : Option Int :=
  match cs with
  | '0' :: 'x' :: ds => (radixNumber? 16 ds).map Int.ofNat
  | '0' :: 'o' :: ds => (radixNumber? 8 ds).map Int.ofNat
  | '0' :: 'b' :: ds => (radixNumber? 2 ds).map Int.ofNat
  | '-' :: ds => if isWhole ds then some (-(numberOf 10 ds : Int)) else none
  | '+' :: ds => if isWhole ds then some (numberOf 10 ds) else none
  | ds => if isWhole ds then some (numberOf 10 ds) else none

/-! ### Floating-point numbers -/

def isExponent : List Char → Bool
  | c :: cs => (c = 'e' || c = 'E') && underscored Char.isDigit (dropSign cs)
  | [] => false

/-- What follows the whole part: a fraction, an exponent, or both. -/
def isFraction : List Char → Bool
  | '.' :: cs =>
    let isMark (c : Char) := c = 'e' || c = 'E'
    let rest := cs.dropWhile (!isMark ·)
    underscored Char.isDigit (cs.takeWhile (!isMark ·)) && (rest.isEmpty || isExponent rest)
  | cs => isExponent cs

/-- The number would be read as positive infinity. -/
def isTooLarge (cs : List Char) : Bool :=
  match Decimal.readFloat (cs.filter (· ≠ '_')) with
  | .ok x => x == Decimal.positiveInfinity
  | .error _ => false

/-- A number with a fraction or an exponent. One above the greatest that can be held is none; one below
    the least counts as negative infinity. -/
def isNumeral (cs : List Char) : Bool :=
  let isWholeChar (c : Char) := c.isDigit || c = '_'
  isWhole ((dropSign cs).takeWhile isWholeChar) && isFraction ((dropSign cs).dropWhile isWholeChar) &&
    !isTooLarge cs

def isFloat (cs : List Char) : Bool :=
  dropSign cs = ['i', 'n', 'f'] || dropSign cs = ['n', 'a', 'n'] || isNumeral cs

/-! ### Dates and times -/

def isPart (least most : Nat) (a b : Char) : Bool :=
  a.isDigit && b.isDigit && least ≤ numberOf 10 [a, b] && numberOf 10 [a, b] ≤ most

def isLeapYear (year : Nat) : Bool := year % 4 = 0 && (year % 100 ≠ 0 || year % 400 = 0)

def daysIn (year month : Nat) : Nat :=
  if month = 2 then (if isLeapYear year then 29 else 28)
  else if month = 4 ∨ month = 6 ∨ month = 9 ∨ month = 11 then 30
  else 31

def isDate : List Char → Bool
  | [y, e, a, r, '-', m, n, '-', d, f] =>
    [y, e, a, r].all Char.isDigit && isPart 1 12 m n &&
      isPart 1 (daysIn (numberOf 10 [y, e, a, r]) (numberOf 10 [m, n])) d f
  | _ => false

def isTime : List Char → Bool
  | h :: i :: ':' :: m :: n :: ':' :: s :: t :: rest =>
    isPart 0 23 h i && isPart 0 59 m n && isPart 0 60 s t &&
      (match rest with
       | [] => true
       | '.' :: ds => !ds.isEmpty && ds.all Char.isDigit
       | _ => false)
  | _ => false

def isOffset : List Char → Bool
  | [] | ['Z'] | ['z'] => true
  | [sign, h, i, ':', m, n] => (sign = '+' || sign = '-') && isPart 0 23 h i && isPart 0 59 m n
  | _ => false

def isZonedTime (cs : List Char) : Bool :=
  let isTimeChar (c : Char) := c.isDigit || c = ':' || c = '.'
  isTime (cs.takeWhile isTimeChar) && isOffset (cs.dropWhile isTimeChar)

def isMoment (cs : List Char) : Bool :=
  isDate cs || isTime cs ||
    (isDate (cs.take 10) &&
      match cs.drop 10 with
      | mark :: time => (mark = 'T' || mark = 't') && isZonedTime time
      | [] => false)

/-! ### Words -/

/-- Unquoted values consist of such characters. -/
def isWordChar (c : Char) : Bool :=
  c.isAlphanum || c = '+' || c = '-' || c = '_' || c = '.' || c = ':'

def ofWord (cs : List Char) : Except Fault Value :=
  match integer? cs with
  | some n => if -9223372036854775808 ≤ n ∧ n ≤ 9223372036854775807 then .ok (.integer (Int64.ofInt n)) else .error .malformed
  | none =>
    if cs = ['t', 'r', 'u', 'e'] ∨ cs = ['f', 'a', 'l', 's', 'e'] ∨ isFloat cs ∨ isMoment cs then .ok .other
    else .error .malformed

/-- Read an unquoted value. A time may stand apart from its date by one space. -/
def read (cs : List Char) : Except Fault (Value × List Char) :=
  let word := cs.takeWhile isWordChar
  match cs.dropWhile isWordChar with
  | ' ' :: rest =>
    if isDate word && isZonedTime (rest.takeWhile isWordChar) then .ok (.other, rest.dropWhile isWordChar)
    else (ofWord word).map (·, ' ' :: rest)
  | rest => (ofWord word).map (·, rest)

end ScriptEngine.Toml.Scalar
