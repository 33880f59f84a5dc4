/-! The real number that a 64-bit floating-point word stands for. -/

namespace ScriptEngine.Decimal

/-- The meaning of a 64-bit floating-point word. A finite word stands for
    `mantissa * 2 ^ exponent`, with a sign that zero has too. -/
inductive Double where
  | finite (negative : Bool) (mantissa : Nat) (exponent : Int)
  | infinite (negative : Bool)
  | notANumber
  deriving Repr, DecidableEq

def fractionSize : Nat := 4503599627370496

def signBit : Nat := 9223372036854775808

def leastExponent : Int := -1074

/-- Read sign, exponent field and fraction of a word. -/
def Double.ofBits (bits : UInt64) : Double :=
  let word := bits.toNat
  let negative := decide (signBit ≤ word)
  let field := word / fractionSize % 2048
  let fraction := word % fractionSize
  if field = 2047 then
    if fraction = 0 then .infinite negative else .notANumber
  else if field = 0 then .finite negative fraction leastExponent
  else .finite negative (fraction + fractionSize) (field - 1075)

def Double.ofFloat (x : Float) : Double := .ofBits x.toBits

def positiveInfinity : Float := Float.ofBits 0x7FF0000000000000

def quietNaN : Float := Float.ofBits 0x7FF8000000000000

/-- The part of a finite number before the point, cut toward zero, and whether nothing is cut. -/
def wholePart (mantissa : Nat) (exponent : Int) : Nat × Bool :=
  if 0 ≤ exponent then (mantissa * Nat.pow 2 exponent.toNat, true)
  else
    let unit := Nat.pow 2 (-exponent).toNat
    (mantissa / unit, mantissa % unit = 0)

end ScriptEngine.Decimal
