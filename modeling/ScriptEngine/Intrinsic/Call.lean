import ScriptEngine.Value.Operation
import ScriptEngine.Text.Blank

/-! What the intrinsics do. -/

namespace ScriptEngine.Intrinsic

/-- What calling an intrinsic asks the machine to do; all but the first have the value unit. -/
inductive Answer where
  | value (v : Value)
  | print (line : String)
  | push (list : Nat) (v : Value)
  | sleep (millis : Nat)

def wrongArgument (i : Intrinsic) (wanted : Wanted) (v : Value) : RuntimeError :=
  .typeMismatch (.argument i wanted v.type)

/-- The integer that a floating-point number is cut to. -/
def cutFloat (x : Float) : Except RuntimeError Value :=
  match Decimal.Double.ofFloat x with
  | .finite negative mantissa exponent =>
    let whole : Int := (Decimal.wholePart mantissa exponent).1
    let n := if negative then -whole else whole
    if Value.fits n then .ok (.int (Int64.ofInt n)) else .error .conversionOverflow
  | _ => .error .conversionOverflow

def toInt : Value → Except RuntimeError Value
  | .int n => .ok (.int n)
  | .bool b => .ok (.int (if b then 1 else 0))
  | .float x => cutFloat x
  | .text s =>
    match Decimal.readInteger (Text.trimChars s.toList) with
    | .ok n => .ok (.int n)
    | .error cause => .error (.badInteger (Text.quoted s) cause)
  | v => .error (wrongArgument .int .convertible v)

def toFloat : Value → Except RuntimeError Value
  | .int n => .ok (.float (Value.nearestFloat n))
  | .float x => .ok (.float x)
  | .text s =>
    match Decimal.readFloat (Text.trimChars s.toList) with
    | .ok x => .ok (.float x)
    | .error cause => .error (.badFloat (Text.quoted s) cause)
  | v => .error (wrongArgument .float .numeric v)

def length (h : Heap) : Value → Except RuntimeError Value
  | .text s => .ok (.int (Int64.ofNat s.length))
  | .list id => .ok (.int (Int64.ofNat (h.items id).size))
  | v => .error (wrongArgument .len .sequence v)

def pushOnto (h : Heap) (v : Value) : Value → Except RuntimeError Answer
  | .list id => (Value.checkStore h id v).map fun _ => .push id v
  | target => .error (wrongArgument .push .list target)

def sleepFor : Value → Except RuntimeError Answer
  | .int n => if 0 ≤ n.toInt then .ok (.sleep n.toInt.toNat) else .error (wrongArgument .sleep .duration (.int n))
  | v => .error (wrongArgument .sleep .duration v)

/-- The number of arguments that is named when a call has the wrong number. -/
def expectedCount (i : Intrinsic) (given : Nat) : Nat :=
  match i.arity with
  | .exactly n => n
  | .any => given

def call (view : Value.View) (i : Intrinsic) (args : List Value) : Except RuntimeError Answer :=
  match i, args with
  | .print, args => .ok (.print (" ".intercalate (args.map (·.display view))))
  | .len, [v] => (length view.heap v).map .value
  | .str, [v] => .ok (.value (.text (v.display view)))
  | .int, [v] => (toInt v).map .value
  | .float, [v] => (toFloat v).map .value
  | .push, [target, v] => pushOnto view.heap v target
  | .sleep, [v] => sleepFor v
  | .panic, [v] => .error (.panic (v.display view))
  | .typeOf, [v] => .ok (.value (.text v.typeName))
  | i, args => .error (.arityMismatch i.name (i.expectedCount args.length) args.length)

end ScriptEngine.Intrinsic
