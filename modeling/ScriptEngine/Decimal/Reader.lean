import ScriptEngine.Decimal.Shortest

/-! Reading decimal numerals: 64-bit integers and floating-point numbers. -/

namespace ScriptEngine.Decimal

def digitValue? (c : Char) : Option Nat := if c.isDigit then some (c.toNat - '0'.toNat) else none

/-- The number that decimal digits write, read from the left. -/
def shortRun (cs : List Char) : Nat := cs.foldl (fun n c => n * 10 + (c.toNat - '0'.toNat)) 0

/-- The number that `size` decimal digits write. The halves of a long run are read apart, so that few
    great numbers are multiplied. -/
def longRun (size : Nat) (cs : List Char) : Nat :=
  if size ≤ 32 then shortRun cs
  else
    let low := size / 2
    longRun (size - low) (cs.take (size - low)) * Nat.pow 10 low + longRun low (cs.drop (size - low))
termination_by size
decreasing_by all_goals omega

def ofDigits (cs : List Char) : Nat := longRun cs.length cs

/-! ### Integers -/

inductive IntegerFault where
  | empty
  | invalidDigit
  | tooLarge
  | tooSmall
  deriving Repr, DecidableEq

def IntegerFault.message : IntegerFault → String
  | .empty => "cannot parse integer from empty string"
  | .invalidDigit => "invalid digit found in string"
  | .tooLarge => "number too large to fit in target type"
  | .tooSmall => "number too small to fit in target type"

/-- Read digits from the left; the first character that is no digit, or that takes the magnitude
    past `limit`, decides the fault. -/
def readMagnitude (limit : Nat) (tooBig : IntegerFault) : List Char → Nat → Except IntegerFault Nat
  | [], value => .ok value
  | c :: cs, value =>
    match digitValue? c with
    | none => .error .invalidDigit
    | some d =>
      if value * 10 + d ≤ limit then readMagnitude limit tooBig cs (value * 10 + d)
      else .error tooBig

def greatestInteger : Nat := 9223372036854775807

def readUnsigned (cs : List Char) : Except IntegerFault Int64 :=
  if cs.isEmpty then .error .invalidDigit
  else (readMagnitude greatestInteger .tooLarge cs 0).map fun n => Int64.ofNat n

/-- A 64-bit integer: an optional sign and at least one digit. -/
def readInteger : List Char → Except IntegerFault Int64
  | [] => .error .empty
  | '+' :: cs => readUnsigned cs
  | '-' :: cs =>
    if cs.isEmpty then .error .invalidDigit
    else (readMagnitude (greatestInteger + 1) .tooSmall cs 0).map fun n => Int64.ofInt (-(n : Int))
  | cs => readUnsigned cs

/-! ### Floating-point numbers -/

inductive FloatFault where
  | empty
  | invalid
  deriving Repr, DecidableEq

def FloatFault.message : FloatFault → String
  | .empty => "cannot parse float from empty string"
  | .invalid => "invalid float literal"

namespace Numeral

/-- The numeral is less than half of the least positive floating-point number: a power of ten is at
    least the power of eight with the same exponent. -/
def isTiny (n : Numeral) : Bool := n.exponent < 0 && n.digits.log2 + 1 + 3 * n.exponent ≤ -1075

/-- The numeral is at least `2 ^ 1024` or `10 ^ 309`, which no floating-point number reaches. -/
def isHuge (n : Numeral) : Bool :=
  if 0 ≤ n.exponent then 1024 ≤ n.digits.log2 + 3 * n.exponent
  else Nat.pow 10 (n.exponent.natAbs + 309) ≤ n.digits

/-- The floating-point number nearest to a numeral. Most numerals outside of the finite range are found
    by their size, so that no great power is computed for them. -/
def toFloat (n : Numeral) : Float :=
  if n.digits = 0 || n.isTiny then 0
  else if n.isHuge then positiveInfinity
  else Float.ofScientific n.digits (n.exponent < 0) n.exponent.natAbs

end Numeral

/-- The exponent past which no more digits of it are taken. -/
def exponentLimit : Nat := 65536

/-- The exponent that digits write. As soon as it has reached the limit, the digits that follow do not
    count. -/
def exponentOf (cs : List Char) : Nat :=
  cs.foldl (fun e c => if e < exponentLimit then e * 10 + (c.toNat - '0'.toNat) else e) 0

def readExponent : List Char → Option Int
  | [] => some 0
  | c :: cs =>
    if c = 'e' || c = 'E' then
      let (negative, digits) := match cs with
        | '+' :: ds => (false, ds)
        | '-' :: ds => (true, ds)
        | ds => (false, ds)
      if digits.isEmpty || !digits.all Char.isDigit then none
      else some (if negative then -(exponentOf digits : Int) else exponentOf digits)
    else none

/-- An unsigned numeral: digits with an optional point among or beside them, then an optional
    exponent. -/
def readNumeral (cs : List Char) : Option Numeral :=
  let (whole, afterWhole) := (cs.takeWhile Char.isDigit, cs.dropWhile Char.isDigit)
  let (decimals, rest) := match afterWhole with
    | '.' :: ds => (ds.takeWhile Char.isDigit, ds.dropWhile Char.isDigit)
    | ds => ([], ds)
  if whole.isEmpty && decimals.isEmpty then none
  else (readExponent rest).map fun e => ⟨ofDigits (whole ++ decimals), e - decimals.length⟩

/-- A number by name, in any mix of cases. -/
def namedFloat? (cs : List Char) : Option Float :=
  let name := String.ofList (cs.map Char.toLower)
  if name = "inf" || name = "infinity" then some positiveInfinity
  else if name = "nan" then some quietNaN
  else none

def readMagnitudeFloat (cs : List Char) : Except FloatFault Float :=
  match readNumeral cs, namedFloat? cs with
  | some n, _ => .ok n.toFloat
  | none, some x => .ok x
  | none, none => .error .invalid

def readFloat : List Char → Except FloatFault Float
  | [] => .error .empty
  | '+' :: cs => readMagnitudeFloat cs
  | '-' :: cs => (readMagnitudeFloat cs).map (- ·)
  | cs => readMagnitudeFloat cs

end ScriptEngine.Decimal
