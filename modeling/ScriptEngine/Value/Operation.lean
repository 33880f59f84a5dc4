import ScriptEngine.Fault
import ScriptEngine.Value.Equality
import ScriptEngine.Value.Reach
import ScriptEngine.Value.Render
import ScriptEngine.Decimal.Remainder

/-! What operators do with values. -/

namespace ScriptEngine.Value

/-- What an operator gives: a value, or the elements of a new list. -/
inductive Made where
  | value (v : Value)
  | list (items : Array Value)

/-! ### Integers -/

def fits (n : Int) : Bool := -9223372036854775808 ≤ n && n ≤ 9223372036854775807

def fitted (op : Operator) (n : Int) : Except RuntimeError Int64 :=
  if fits n then .ok (Int64.ofInt n) else .error (.overflow op)

/-- Integer arithmetic. Division cuts toward zero, and a remainder whose quotient does not fit is no
    result either. -/
def integer (op : Operator) (a b : Int64) : Except RuntimeError Int64 :=
  match op with
  | .add => fitted op (a.toInt + b.toInt)
  | .sub => fitted op (a.toInt - b.toInt)
  | .mul => fitted op (a.toInt * b.toInt)
  | .div => if b = 0 then .error .divisionByZero else fitted op (a.toInt.tdiv b.toInt)
  | _ =>
    if b = 0 then .error .divisionByZero
    else (fitted op (a.toInt.tdiv b.toInt)).map fun _ => Int64.ofInt (a.toInt.tmod b.toInt)

def negate : Value → Except RuntimeError Value
  | int n => if fits (-n.toInt) then .ok (int (-n)) else .error .negationOverflow
  | float x => .ok (float (-x))
  | v => .error (.typeMismatch (.negate v.type))

/-! ### Numbers of either kind -/

/-- The value as a floating-point number, if it is a number. -/
def toFloat? : Value → Option Float
  | int n => some (nearestFloat n)
  | float x => some x
  | _ => none

def floating (op : Operator) (a b : Float) : Float :=
  match op with
  | .add => a + b
  | .sub => a - b
  | .mul => a * b
  | .div => a / b
  | _ => Decimal.floatRemainder a b

/-! ### Operators -/

/-- Arithmetic. Adding to a text joins texts, and adding lists makes a new list of both. -/
def arithmetic (view : View) (op : Operator) (a b : Value) : Except RuntimeError Made :=
  match a, b with
  | int m, int n => (integer op m n).map fun r => .value (int r)
  | a, b =>
    match a.toFloat?, b.toFloat? with
    | some x, some y => .ok (.value (float (floating op x y)))
    | _, _ =>
      match op, a, b with
      | .add, list i, list j => .ok (.list (view.heap.items i ++ view.heap.items j))
      | .add, text s, b => .ok (.value (text (s ++ b.display view)))
      | .add, a, text t => .ok (.value (text (a.display view ++ t)))
      | op, a, b => .error (.typeMismatch (.apply op a.type b.type))

/-- The order of floating-point numbers; a pair without an order counts as equal. -/
def floatOrder (a b : Float) : Ordering := if a < b then .lt else if b < a then .gt else .eq

def boolOrder (a b : Bool) : Ordering :=
  match a, b with
  | false, true => .lt
  | true, false => .gt
  | _, _ => .eq

/-- The order of two values: numbers, texts or booleans. -/
def order (a b : Value) : Except RuntimeError Ordering :=
  match a, b with
  | int m, int n => .ok (compare m n)
  | text s, text t => .ok (compare s t)
  | bool p, bool q => .ok (boolOrder p q)
  | a, b =>
    match a.toFloat?, b.toFloat? with
    | some x, some y => .ok (floatOrder x y)
    | _, _ => .error (.typeMismatch (.compare a.type b.type))

def operate (view : View) (op : Operator) (a b : Value) : Except RuntimeError Made :=
  match op with
  | .eq => .ok (.value (bool (a.equals view.heap b)))
  | .ne => .ok (.value (bool (!a.equals view.heap b)))
  | .lt => (a.order b).map fun o => .value (bool (o == .lt))
  | .le => (a.order b).map fun o => .value (bool (o != .gt))
  | .gt => (a.order b).map fun o => .value (bool (o == .gt))
  | .ge => (a.order b).map fun o => .value (bool (o != .lt))
  | op => arithmetic view op a b

/-! ### Elements -/

/-- The position that an index names in a sequence of so many elements. -/
def position (index : Value) (length : Nat) : Except RuntimeError Nat :=
  match index with
  | int n =>
    if 0 ≤ n.toInt ∧ n.toInt.toNat < length then .ok n.toInt.toNat
    else .error (.indexOutOfBounds n length)
  | v => .error (.typeMismatch (.position v.type))

def charAt? (s : String) (i : Nat) : Option Char := (s.drop i).front?

theorem charAt?_eq (s : String) (i : Nat) : charAt? s i = s.toList[i]? := by
  have hrest := (String.Slice.splits_nextn_startPos s.toSlice i).copy_sliceFrom_eq
  rw [charAt?, String.Slice.front?_eq, String.drop, String.Slice.drop_eq_sliceFrom, hrest]
  simp

def element (h : Heap) (base index : Value) : Except RuntimeError Value :=
  match base with
  | list id => (index.position (h.items id).size).map fun i => (h.items id).getD i .unit
  | text s => (index.position s.length).map fun i => text (String.ofList (charAt? s i).toList)
  | v => .error (.typeMismatch (.indexInto v.type))

/-- A list may hold the value: it is not nested in it. -/
def checkStore (h : Heap) (id : Nat) (v : Value) : Except RuntimeError Unit :=
  if h.reaches v id then .error .cyclicList else .ok ()

/-- The list and the position that an indexed assignment changes. -/
def assignTarget (h : Heap) (base index v : Value) : Except RuntimeError (Nat × Nat) :=
  match base with
  | list id => do
    let i ← index.position (h.items id).size
    checkStore h id v
    return (id, i)
  | b => .error (.typeMismatch (.assignInto b.type))

end ScriptEngine.Value
