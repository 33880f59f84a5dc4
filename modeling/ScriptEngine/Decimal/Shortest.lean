import ScriptEngine.Decimal.Double

/-! The decimal text of a floating-point number: the fewest digits that read back as the same
    number, written without an exponent. -/

namespace ScriptEngine.Decimal

/-- A decimal number `digits * 10 ^ exponent`. -/
structure Numeral where
  digits : Nat
  exponent : Int
  deriving Repr, DecidableEq

namespace Numeral

/-- Drop trailing zero digits, at most `fuel` of them. -/
def dropZeros : Nat → Numeral → Numeral
  | 0, n => n
  | fuel + 1, n => if n.digits % 10 = 0 then dropZeros fuel ⟨n.digits / 10, n.exponent + 1⟩ else n

/-- Plain positional text: digits, and a point if the number has decimals. -/
def positional (n : Numeral) : String :=
  let text := Nat.toDigits 10 n.digits
  if 0 ≤ n.exponent then String.ofList (text ++ List.replicate n.exponent.toNat '0')
  else
    let places := (-n.exponent).toNat
    let padded := List.replicate (places + 1 - text.length) '0' ++ text
    let cut := padded.length - places
    String.ofList (padded.take cut ++ '.' :: padded.drop cut)

end Numeral

/-- The numbers that round to `mantissa * 2 ^ exponent`, in units of `2 ^ (exponent - 2)`: their
    bounds, which belong to the interval when the mantissa is even. -/
structure Interval where
  low : Nat
  value : Nat
  high : Nat
  closed : Bool
  exponent : Int

def Interval.around (mantissa : Nat) (exponent : Int) : Interval :=
  let gap := if mantissa = fractionSize ∧ exponent ≠ leastExponent then 1 else 2
  { low := 4 * mantissa - gap
    value := 4 * mantissa
    high := 4 * mantissa + 2
    closed := mantissa % 2 = 0
    exponent := exponent - 2 }

namespace Interval

/-- Both sides of a comparison between `units * 2 ^ i.exponent` and `n`, cleared of fractions. -/
def scaled (i : Interval) (units : Nat) (n : Numeral) : Nat × Nat :=
  (units * Nat.pow 2 i.exponent.toNat * Nat.pow 10 (-n.exponent).toNat,
   n.digits * Nat.pow 10 n.exponent.toNat * Nat.pow 2 (-i.exponent).toNat)

/-- The decimal number rounds to the interval's value. -/
def contains (i : Interval) (n : Numeral) : Bool :=
  let (low, fromLow) := i.scaled i.low n
  let (high, fromHigh) := i.scaled i.high n
  if i.closed then low ≤ fromLow && fromHigh ≤ high else low < fromLow && fromHigh < high

/-- The greatest number of the grid `10 ^ exponent` that is at most the value. -/
def floorAt (i : Interval) (exponent : Int) : Numeral :=
  let (value, unit) := i.scaled i.value ⟨1, exponent⟩
  ⟨value / unit, exponent⟩

/-- The grid point above the value is at most as far away as the one below. -/
def upperIsNear (i : Interval) (below : Numeral) : Bool :=
  let (value, floor) := i.scaled i.value below
  let (_, ceiling) := i.scaled i.value ⟨below.digits + 1, below.exponent⟩
  ceiling - value ≤ value - floor

/-- The point of one grid that reads back, the nearer one of two, the upper one of two equally near. -/
def onGrid (i : Interval) (exponent : Int) : Option Numeral :=
  let below := i.floorAt exponent
  let above : Numeral := ⟨below.digits + 1, exponent⟩
  match i.contains below, i.contains above with
  | true, true => some (if i.upperIsNear below then above else below)
  | true, false => some below
  | false, true => some above
  | false, false => none

/-- The first point that reads back on the grids from `10 ^ exponent` downward. -/
def search (i : Interval) (exponent : Int) : Nat → Numeral
  | 0 => i.floorAt exponent
  | grids + 1 => (i.onGrid exponent).getD (i.search (exponent - 1) grids)

/-- The number of decimal places to move the point so that one digit stands before it. -/
def leadingExponent (i : Interval) : Int :=
  let whole := (i.floorAt 0).digits
  if whole ≠ 0 then (Nat.toDigits 10 whole).length - 1
  else
    let shifted := (i.floorAt (-400)).digits
    (Nat.toDigits 10 shifted).length - 401

/-- The fewest digits that read back, and of those the nearest. -/
def shortest (i : Interval) : Numeral :=
  (i.search i.leadingExponent 17).dropZeros 20

end Interval

/-- How a kind of output writes the numbers that have no decimals. -/
structure FloatStyle where
  /-- Text put after a finite number without decimals. -/
  wholeSuffix : String
  /-- Write all digits of a finite number without decimals, also those past the shortest ones. -/
  wholeExact : Bool

def floatText (style : FloatStyle) (x : Float) : String :=
  match Double.ofFloat x with
  | .notANumber => "NaN"
  | .infinite negative => if negative then "-inf" else "inf"
  | .finite negative mantissa exponent =>
    let sign := if negative then "-" else ""
    let (whole, exact) := wholePart mantissa exponent
    let body :=
      if exact && (style.wholeExact || mantissa = 0) then toString whole
      else (Interval.around mantissa exponent).shortest.positional
    sign ++ body ++ (if exact then style.wholeSuffix else "")

/-- Shortest digits throughout: `150`, `0.1`, `1e21` as a one and 21 zeros. -/
def plainStyle : FloatStyle := ⟨"", false⟩

/-- A number without decimals shows all its digits and one zero after the point. -/
def pointStyle : FloatStyle := ⟨".0", true⟩

end ScriptEngine.Decimal
