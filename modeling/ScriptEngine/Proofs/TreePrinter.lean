import ScriptEngine.Tree.Parser

/-! Writing a syntax tree as tokens. A tree is written with the fewest parentheses that the table of precedences
    allows: an operand stands in parentheses only if it binds less tightly than its place asks for. -/

namespace ScriptEngine

namespace BinaryOp

def mark : BinaryOp → Mark
  | add => .plus
  | sub => .minus
  | mul => .star
  | div => .slash
  | rem => .percent
  | and => .andAnd
  | or => .orOr
  | eq => .eqEq
  | notEq => .bangEq
  | lt => .lt
  | ltEq => .ltEq
  | gt => .gt
  | gtEq => .gtEq

theorem binaryOp?_mark (op : BinaryOp) : Tree.Level.binaryOp? (.mark op.mark) = some op := by
  cases op <;> rfl

theorem precedence_pos (op : BinaryOp) : 0 < op.precedence := by
  cases op <;> decide

theorem precedence_le (op : BinaryOp) : op.precedence ≤ 20 := by
  cases op <;> decide

end BinaryOp

namespace UnaryOp

def mark : UnaryOp → Mark
  | neg => .minus
  | not => .bang

theorem unaryOp?_mark (op : UnaryOp) : Tree.Level.unaryOp? (.mark op.mark) = some op := by
  cases op <;> rfl

end UnaryOp

/-- A negative integer is written as a minus and its magnitude. -/
def Literal.written : Literal → List Lexeme
  | int value => if value < 0 then [.mark .minus, .integer (-value)] else [.integer value]
  | float value => [.float value]
  | bool value => [.keyword (if value then .yes else .no)]
  | text value => [.text value]

namespace Tree

/-! ### Places of expressions -/

/-- How tightly a unary operator binds. -/
def unaryPrecedence : Nat := 21

/-- How tightly calls and indices bind, and what needs no operator. -/
def postfixPrecedence : Nat := 22

/-- How tightly the expression binds. -/
def Expr.precedence : Expr → Nat
  | binary op _ _ _ => op.precedence
  | unary _ _ _ => unaryPrecedence
  | literal (.int value) _ => if value < 0 then unaryPrecedence else postfixPrecedence
  | _ => postfixPrecedence

def inParens (ls : List Lexeme) : List Lexeme := .mark .openParen :: (ls ++ [.mark .closeParen])

/-- An expression that is written so, where at least the given precedence is asked for. -/
def inPlace (least : Nat) (e : Expr) (written : List Lexeme) : List Lexeme :=
  if e.precedence < least then inParens written else written

def mutableWritten (mutable : Bool) : List Lexeme := if mutable then [.keyword .mutable] else []

def withCommas : List (List Lexeme) → List Lexeme
  | [] => []
  | part :: parts => part ++ parts.flatMap (.mark .comma :: ·)

/-! ### Trees -/

mutual

def Expr.written : Expr → List Lexeme
  | .name ident => [.word ident.name]
  | .path library member _ => [.word library.name, .mark .colonColon, .word member.name]
  | .literal value _ => value.written
  | .binary op left right _ =>
    inPlace op.precedence left left.written ++
      .mark op.mark :: inPlace (op.precedence + 1) right right.written
  | .unary op operand _ => .mark op.mark :: inPlace unaryPrecedence operand operand.written
  | .call callee args _ =>
    inPlace postfixPrecedence callee callee.written ++
      .mark .openParen :: (withCommas (Expr.writtenEach args) ++ [.mark .closeParen])
  | .index base position _ =>
    inPlace postfixPrecedence base base.written ++ .mark .openBracket :: (position.written ++ [.mark .closeBracket])
  | .list items _ => .mark .openBracket :: (withCommas (Expr.writtenEach items) ++ [.mark .closeBracket])
  | .branch b => b.written
  | .block b => b.written

def Expr.writtenEach : List Expr → List (List Lexeme)
  | [] => []
  | e :: es => e.written :: Expr.writtenEach es

/-- A condition stands in parentheses. -/
def Branch.written : Branch → List Lexeme
  | .mk condition body otherwise _ =>
    .keyword .cond :: (inParens condition.written ++ (body.written ++ otherwise.written))

def Otherwise.written : Otherwise → List Lexeme
  | .nothing => []
  | .block b => .keyword .otherwise :: b.written
  | .branch b => .keyword .otherwise :: b.written

/-- A statement that does not end in a block ends in a semicolon. -/
def Stmt.written : Stmt → List Lexeme
  | .bind name mutable none _ =>
    .keyword .bind :: (mutableWritten mutable ++ [.word name.name, .mark .semicolon])
  | .bind name mutable (some value) _ =>
    .keyword .bind :: (mutableWritten mutable ++ .word name.name :: .mark .eq :: (value.written ++ [.mark .semicolon]))
  | .assign target value _ => .word target.name :: .mark .eq :: (value.written ++ [.mark .semicolon])
  | .setIndex base position value _ =>
    inPlace postfixPrecedence base base.written ++ .mark .openBracket :: (position.written ++
      .mark .closeBracket :: .mark .eq :: (value.written ++ [.mark .semicolon]))
  | .func name params body _ =>
    .keyword .func :: .word name.name ::
      (inParens (withCommas (params.map fun p => [.word p.name])) ++ body.written)
  | .eval e => e.written ++ [.mark .semicolon]
  | .ret value _ => .keyword .ret :: (Expr.writtenIfAny value ++ [.mark .semicolon])
  | .loop condition body _ => .keyword .loop :: (inParens condition.written ++ body.written)
  | .leave _ => [.keyword .leave, .mark .semicolon]
  | .next _ => [.keyword .next, .mark .semicolon]

def Stmt.writtenAll : List Stmt → List Lexeme
  | [] => []
  | s :: rest => s.written ++ Stmt.writtenAll rest

def Expr.writtenIfAny : Option Expr → List Lexeme
  | none => []
  | some e => e.written

def Block.written : Block → List Lexeme
  | .mk stmts tail _ =>
    .mark .openBrace :: (Stmt.writtenAll stmts ++ (Expr.writtenIfAny tail ++ [.mark .closeBrace]))

end

/-- A fragment, up to the end of input. -/
def Fragment.written (f : Fragment) : List Lexeme :=
  Stmt.writtenAll f.stmts ++ (Expr.writtenIfAny f.tail ++ [.endOfInput])

/-! ### Trees without spans -/

end Tree

def Ident.bare (i : Ident) : Ident := ⟨i.name, ⟨0, 0⟩⟩

namespace Tree

mutual

def Expr.bare : Expr → Expr
  | .name ident => .name ident.bare
  | .path library member _ => .path library.bare member.bare ⟨0, 0⟩
  | .literal value _ => .literal value ⟨0, 0⟩
  | .binary op left right _ => .binary op left.bare right.bare ⟨0, 0⟩
  | .unary op operand _ => .unary op operand.bare ⟨0, 0⟩
  | .call callee args _ => .call callee.bare (Expr.bareAll args) ⟨0, 0⟩
  | .index base position _ => .index base.bare position.bare ⟨0, 0⟩
  | .list items _ => .list (Expr.bareAll items) ⟨0, 0⟩
  | .branch b => .branch b.bare
  | .block b => .block b.bare

def Expr.bareAll : List Expr → List Expr
  | [] => []
  | e :: es => e.bare :: Expr.bareAll es

def Expr.bareIfAny : Option Expr → Option Expr
  | none => none
  | some e => some e.bare

def Branch.bare : Branch → Branch
  | .mk condition body otherwise _ => .mk condition.bare body.bare otherwise.bare ⟨0, 0⟩

def Otherwise.bare : Otherwise → Otherwise
  | .nothing => .nothing
  | .block b => .block b.bare
  | .branch b => .branch b.bare

def Stmt.bare : Stmt → Stmt
  | .bind name mutable value _ => .bind name.bare mutable (Expr.bareIfAny value) ⟨0, 0⟩
  | .assign target value _ => .assign target.bare value.bare ⟨0, 0⟩
  | .setIndex base position value _ => .setIndex base.bare position.bare value.bare ⟨0, 0⟩
  | .func name params body _ => .func name.bare (params.map Ident.bare) body.bare ⟨0, 0⟩
  | .eval e => .eval e.bare
  | .ret value _ => .ret (Expr.bareIfAny value) ⟨0, 0⟩
  | .loop condition body _ => .loop condition.bare body.bare ⟨0, 0⟩
  | .leave _ => .leave ⟨0, 0⟩
  | .next _ => .next ⟨0, 0⟩

def Stmt.bareAll : List Stmt → List Stmt
  | [] => []
  | s :: rest => s.bare :: Stmt.bareAll rest

def Block.bare : Block → Block
  | .mk stmts tail _ => .mk (Stmt.bareAll stmts) (Expr.bareIfAny tail) ⟨0, 0⟩

end

attribute [simp] Expr.bare Expr.bareAll Expr.bareIfAny Branch.bare Otherwise.bare Stmt.bare Stmt.bareAll Block.bare

def Fragment.bare (f : Fragment) : Fragment := ⟨Stmt.bareAll f.stmts, Expr.bareIfAny f.tail, ⟨0, 0⟩⟩

/-! ### Trees with signed integers -/

/-- An integer literal, whose sign is part of it. -/
def Expr.IsInteger : Expr → Prop
  | .literal (.int _) _ => True
  | _ => False

mutual

/-- No minus stands in front of an integer literal. -/
def Expr.Signed : Expr → Prop
  | .name _ | .path .. | .literal .. => True
  | .binary _ left right _ => left.Signed ∧ right.Signed
  | .unary op operand _ => (op = .neg → ¬operand.IsInteger) ∧ operand.Signed
  | .call callee args _ => callee.Signed ∧ Expr.SignedAll args
  | .index base position _ => base.Signed ∧ position.Signed
  | .list items _ => Expr.SignedAll items
  | .branch b => b.Signed
  | .block b => b.Signed

def Expr.SignedAll : List Expr → Prop
  | [] => True
  | e :: es => e.Signed ∧ Expr.SignedAll es

def Expr.SignedIfAny : Option Expr → Prop
  | none => True
  | some e => e.Signed

def Branch.Signed : Branch → Prop
  | .mk condition body otherwise _ => condition.Signed ∧ body.Signed ∧ otherwise.Signed

def Otherwise.Signed : Otherwise → Prop
  | .nothing => True
  | .block b => b.Signed
  | .branch b => b.Signed

def Stmt.Signed : Stmt → Prop
  | .bind _ _ value _ | .ret value _ => Expr.SignedIfAny value
  | .assign _ value _ => value.Signed
  | .setIndex base position value _ => base.Signed ∧ position.Signed ∧ value.Signed
  | .func _ _ body _ => body.Signed
  | .eval e => e.Signed
  | .loop condition body _ => condition.Signed ∧ body.Signed
  | .leave _ | .next _ => True

def Stmt.SignedAll : List Stmt → Prop
  | [] => True
  | s :: rest => s.Signed ∧ Stmt.SignedAll rest

def Block.Signed : Block → Prop
  | .mk stmts tail _ => Stmt.SignedAll stmts ∧ Expr.SignedIfAny tail

end

end Tree
end ScriptEngine
