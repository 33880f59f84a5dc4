import ScriptEngine.Span

/-! The syntax tree of one fragment of script. Every node knows the bytes it was read from. -/

namespace ScriptEngine

inductive UnaryOp where
  | neg
  | not
  deriving Repr, DecidableEq

inductive BinaryOp where
  | add
  | sub
  | mul
  | div
  | rem
  | and
  | or
  | eq
  | notEq
  | lt
  | ltEq
  | gt
  | gtEq
  deriving Repr, DecidableEq

namespace BinaryOp

def spelling : BinaryOp → String
  | add => "+"
  | sub => "-"
  | mul => "*"
  | div => "/"
  | rem => "%"
  | and => "&&"
  | or => "||"
  | eq => "=="
  | notEq => "!="
  | lt => "<"
  | ltEq => "<="
  | gt => ">"
  | gtEq => ">="

/-- How tightly the operator binds. -/
def precedence : BinaryOp → Nat
  | mul | div | rem => 20
  | add | sub => 10
  | lt | ltEq | gt | gtEq => 9
  | eq | notEq => 5
  | and => 4
  | or => 3

end BinaryOp

inductive Literal where
  | int (value : Int64)
  | float (value : Float)
  | bool (value : Bool)
  | text (value : String)
  deriving Repr

structure Ident where
  name : String
  span : Span
  deriving Repr, DecidableEq

namespace Tree

mutual

inductive Expr where
  | name (ident : Ident)
  | path (library : Ident) (member : Ident) (span : Span)
  | literal (value : Literal) (span : Span)
  | binary (op : BinaryOp) (left right : Expr) (span : Span)
  | unary (op : UnaryOp) (operand : Expr) (span : Span)
  | call (callee : Expr) (args : List Expr) (span : Span)
  | index (base position : Expr) (span : Span)
  | list (items : List Expr) (span : Span)
  | branch (b : Branch)
  | block (b : Block)

inductive Branch where
  | mk (condition : Expr) (body : Block) (otherwise : Otherwise) (span : Span)

inductive Otherwise where
  | nothing
  | block (b : Block)
  | branch (b : Branch)

inductive Stmt where
  | bind (name : Ident) (mutable : Bool) (value : Option Expr) (span : Span)
  | assign (target : Ident) (value : Expr) (span : Span)
  | setIndex (base position value : Expr) (span : Span)
  | func (name : Ident) (params : List Ident) (body : Block) (span : Span)
  | eval (e : Expr)
  | ret (value : Option Expr) (span : Span)
  | loop (condition : Expr) (body : Block) (span : Span)
  | leave (span : Span)
  | next (span : Span)

/-- Statements, and the expression after them that gives the block its value. -/
inductive Block where
  | mk (stmts : List Stmt) (tail : Option Expr) (span : Span)

end

namespace Block

def stmts : Block → List Stmt
  | mk stmts _ _ => stmts

def tail : Block → Option Expr
  | mk _ tail _ => tail

def span : Block → Span
  | mk _ _ span => span

end Block

def Branch.span : Branch → Span
  | mk _ _ _ span => span

namespace Expr

def span : Expr → Span
  | name ident => ident.span
  | path _ _ span => span
  | literal _ span => span
  | binary _ _ _ span => span
  | unary _ _ span => span
  | call _ _ span => span
  | index _ _ span => span
  | list _ span => span
  | branch b => b.span
  | block b => b.span

/-- The expression ends in a block, so it may stand as a statement without a semicolon. -/
def isBlockLike : Expr → Bool
  | branch _ | block _ => true
  | _ => false

end Expr

namespace Stmt

def span : Stmt → Span
  | bind _ _ _ span => span
  | assign _ _ span => span
  | setIndex _ _ _ span => span
  | func _ _ _ span => span
  | eval e => e.span
  | ret _ span => span
  | loop _ _ span => span
  | leave span => span
  | next span => span

/-- Control never reaches the statement after this one. -/
def diverges : Stmt → Bool
  | ret .. | leave _ | next _ => true
  | _ => false

end Stmt

/-- A whole fragment: one submission, or the source of a library. -/
structure Fragment where
  stmts : List Stmt
  tail : Option Expr
  span : Span

end Tree
end ScriptEngine
