import ScriptEngine.Tree

/-! The outline of a fragment: its tree on one line, each node in parentheses with its span. -/

namespace ScriptEngine.Tree.Outline

/-- A node: its label, its span, and its parts. -/
def node (label : String) (span : Span) (parts : List String) : String :=
  "(" ++ " ".intercalate (label :: s!"{span.start}..{span.stop}" :: parts) ++ ")"

def hex (width n : Nat) : String :=
  let digits := Nat.toDigits 16 n
  String.ofList (List.replicate (width - digits.length) '0' ++ digits)

def quotedChar (c : Char) : String :=
  if c = '"' then "\\\""
  else if c = '\\' then "\\\\"
  else if c = '\n' then "\\n"
  else if c = '\r' then "\\r"
  else if c = '\t' then "\\t"
  else if c = '\x08' then "\\b"
  else if c = '\x0c' then "\\f"
  else if c.toNat < 0x20 then "\\u" ++ hex 4 c.toNat
  else c.toString

def quoted (s : String) : String := "\"" ++ String.join (s.toList.map quotedChar) ++ "\""

def ident (i : Ident) : String := node "id" i.span [i.name]

def literal (span : Span) : Literal → String
  | .int value => node "int" span [toString value]
  | .float value => node "float" span [hex 16 value.toBits.toNat]
  | .bool value => node "bool" span [if value then "true" else "false"]
  | .text value => node "str" span [quoted value]

mutual

def expr : Expr → String
  | .name i => ident i
  | .path library member span => node "path" span [ident library, ident member]
  | .literal value span => literal span value
  | .binary op left right span => node op.spelling span [expr left, expr right]
  | .unary op operand span =>
    node (match op with | .neg => "neg" | .not => "not") span [expr operand]
  | .call callee args span => node "call" span (expr callee :: exprs args)
  | .index base position span => node "index" span [expr base, expr position]
  | .list items span => node "list" span (exprs items)
  | .branch b => branch b
  | .block b => block b

def exprs : List Expr → List String
  | [] => []
  | e :: es => expr e :: exprs es

def branch : Branch → String
  | .mk condition body other span => node "if" span (expr condition :: block body :: otherwise other)

def otherwise : Otherwise → List String
  | .nothing => []
  | .block b => [block b]
  | .branch b => [branch b]

def stmt : Stmt → String
  | .bind name mutable value span =>
    node (if mutable then "let-mut" else "let") span (ident name :: optional value)
  | .assign target value span => node "assign" span [ident target, expr value]
  | .setIndex base position value span => node "set" span [expr base, expr position, expr value]
  | .func name params body span =>
    node "fn" span [ident name, "(" ++ " ".intercalate (params.map ident) ++ ")", block body]
  | .eval e => node "expr" e.span [expr e]
  | .ret value span => node "return" span (optional value)
  | .loop condition body span => node "while" span [expr condition, block body]
  | .leave span => node "break" span []
  | .next span => node "continue" span []

def optional : Option Expr → List String
  | none => []
  | some e => [expr e]

def stmts : List Stmt → List String
  | [] => []
  | s :: ss => stmt s :: stmts ss

def tail : Option Expr → List String
  | none => []
  | some e => ["(tail " ++ expr e ++ ")"]

def block : Block → String
  | .mk ss last span => node "block" span (stmts ss ++ tail last)

end

def fragment (f : Fragment) : String := node "submission" f.span (stmts f.stmts ++ tail f.tail)

end ScriptEngine.Tree.Outline
