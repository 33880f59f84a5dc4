import ScriptEngine.Tree
import ScriptEngine.Image
import ScriptEngine.Intrinsic

/-! The bound tree: a fragment in which every name stands for a place, a function, an import or an
    intrinsic. -/

namespace ScriptEngine.Bound

/-- Where a variable lives. -/
inductive Place where
  /-- A local of the running function. -/
  | frame (index : Nat)
  /-- A slot of a submission's record. -/
  | slot (record index : Nat)
  deriving Repr, DecidableEq

mutual

inductive Expr where
  | unit
  | int (value : Int64)
  | float (value : Float)
  | bool (value : Bool)
  | text (value : String)
  | load (place : Place)
  | function (index : Nat)
  | imported (index : Nat)
  /-- The right side runs only if the left one holds. -/
  | both (left right : Expr)
  /-- The right side runs only if the left one fails. -/
  | either (left right : Expr)
  | operate (op : Operator) (left right : Expr)
  | unary (op : UnaryOp) (operand : Expr)
  | call (callee : Expr) (args : List Expr)
  | intrinsic (i : Intrinsic) (args : List Expr)
  | index (base position : Expr)
  | list (items : List Expr)
  | branch (condition : Expr) (body otherwise : Block)
  | block (b : Block)

/-- Statements know the source line they start on. -/
inductive Stmt where
  | store (place : Place) (value : Expr) (line : Nat)
  | setIndex (base position value : Expr) (line : Nat)
  | eval (e : Expr) (line : Nat)
  | ret (value : Expr) (line : Nat)
  | loop (condition : Expr) (body : Block) (line : Nat)
  | leave (line : Nat)
  | next (line : Nat)

/-- What gives a block its value; without it the value is unit. -/
inductive Tail where
  | nothing
  | value (e : Expr) (line : Nat)

inductive Block where
  | mk (stmts : List Stmt) (tail : Tail)

end

def Block.empty : Block := .mk [] .nothing

structure Func where
  name : String
  arity : Nat
  /-- The number of locals, parameters first. -/
  locals : Nat
  body : Block
  line : Nat

/-- A function that the entry routine stores into the submission's record. -/
structure FunctionSlot where
  function : Nat
  slot : Nat
  deriving Repr, DecidableEq

structure Program where
  functions : List Func
  imports : Array ImportRef
  slots : Array String
  functionSlots : List FunctionSlot
  /-- The position of the entry routine among the functions. -/
  entry : Option Nat
  record : Option Nat

end ScriptEngine.Bound
