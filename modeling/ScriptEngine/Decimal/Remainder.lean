import ScriptEngine.Decimal.Double

/-! The exact remainder of floating-point numbers: what is left of the first after taking the second away
    as often as it fits, with the sign of the first. -/

namespace ScriptEngine.Decimal

/-- The word for `mantissa * 2 ^ exponent`, which a finite word can stand for exactly. -/
def exactBits (negative : Bool) (mantissa : Nat) (exponent : Int) : UInt64 :=
  let sign := if negative then signBit else 0
  if mantissa = 0 then UInt64.ofNat sign
  else
    let scaled := max (exponent + (mantissa.log2 : Int) - 52) leastExponent
    let fraction := mantissa * Nat.pow 2 (exponent - scaled).toNat / Nat.pow 2 (scaled - exponent).toNat
    let field := if fraction < fractionSize then 0 else (scaled + 1075).toNat
    UInt64.ofNat (sign + field * fractionSize + fraction % fractionSize)

/-- The remainder of `m * 2 ^ e` by `n * 2 ^ f`, in units of `2 ^ min e f`. -/
def exactRemainder (m : Nat) (e : Int) (n : Nat) (f : Int) : Nat :=
  (m * Nat.pow 2 (e - min e f).toNat) % (n * Nat.pow 2 (f - min e f).toNat)

def floatRemainder (a b : Float) : Float :=
  match Double.ofFloat a, Double.ofFloat b with
  | .finite negative m e, .finite _ n f =>
    if n = 0 then quietNaN
    else Float.ofBits (exactBits negative (exactRemainder m e n f) (min e f))
  | .finite .., .infinite _ => a
  | _, _ => quietNaN

end ScriptEngine.Decimal
