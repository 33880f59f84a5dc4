import ScriptEngine.Tree
import ScriptEngine.Tree.SyntaxError

/-! Reading a syntax tree from tokens.

    Grammar functions are plain state functions on a `Cursor`. A nested construct (an operand, a
    block, a conditional) is read by the next `Level`; there are `maxNesting` levels, and the one
    below the last refuses to read. Chains that grow a tree without nesting calls, such as
    `a + b + c` or `f()()`, count their height in `Cursor.peak`. -/

namespace ScriptEngine.Tree

/-- A place between two tokens. -/
structure Cursor where
  rest : List Token
  /-- Where the token before this place stands. -/
  previous : Span
  /-- The greatest level reached by the expression being read. -/
  peak : Nat

namespace Cursor

def lexeme (c : Cursor) : Lexeme :=
  match c.rest with
  | [] => .endOfInput
  | t :: _ => t.lexeme

def span (c : Cursor) : Span :=
  match c.rest with
  | [] => c.previous
  | t :: _ => t.span

def advance (c : Cursor) : Cursor :=
  match c.rest with
  | [] => c
  | t :: ts => { c with rest := ts, previous := t.span }

def atMark (c : Cursor) (m : Mark) : Bool := c.lexeme.isMark m

def atKeyword (c : Cursor) (k : Keyword) : Bool := c.lexeme.isKeyword k

def atEnd (c : Cursor) : Bool := c.lexeme.isEnd

end Cursor

/-- A grammar function: on failure too it says how far it came. -/
abbrev Parser := EStateM SyntaxError Cursor

namespace Parser

def fail {α : Type} (cause : SyntaxCause) (span : Span) : Parser α := throw ⟨cause, span⟩

/-- Fail at the token that comes next. -/
def failHere {α : Type} (cause : SyntaxCause) : Parser α := do fail cause (← get).span

def next : Parser Span := do
  modify Cursor.advance
  return (← get).previous

def takeMark (m : Mark) : Parser Bool := do
  if (← get).atMark m then
    let _ ← next
    return true
  else return false

def takeKeyword (k : Keyword) : Parser Bool := do
  if (← get).atKeyword k then
    let _ ← next
    return true
  else return false

/-- Step over a mark that must come next. -/
def expect (m : Mark) : Parser Span := do
  if (← get).atMark m then next
  else failHere (.expectedMark m (← get).lexeme)

def ident (missing : SyntaxCause) : Parser Ident := do
  match (← get).lexeme with
  | .word name => return ⟨name, ← next⟩
  | _ => failHere missing

/-! ### Counting levels -/

/-- Start to measure a chain at level `depth`; gives the measure of what surrounds it. -/
def openChain (depth : Nat) : Parser Nat := do
  let outer := (← get).peak
  modify fun c => { c with peak := depth }
  return outer

/-- The chain is read: what surrounds it is at least as high. -/
def closeChain (outer : Nat) : Parser Unit := modify fun c => { c with peak := max c.peak outer }

/-- A node was put around everything read since the chain was opened. -/
def deepen : Parser Unit := do
  modify fun c => { c with peak := c.peak + 1 }
  if (← get).peak > maxNesting then fail .tooDeep (← get).previous

/-- Read one level deeper, at level `depth`. -/
def enter {α : Type} (depth : Nat) (p : Parser α) : Parser α := do
  modify fun c => { c with peak := max c.peak depth }
  p

end Parser

open ScriptEngine.Tree.Parser

/-- The readers that nest, for constructs inside of `depth` others. The flag says whether an opening
    brace may start a block expression; it may not right after a condition. -/
structure Level where
  depth : Nat
  unary : Bool → Parser Expr
  block : Bool → Parser Block
  /-- A conditional after its first keyword. -/
  branch : Bool → Parser Branch

namespace Level

/-! ### Operators -/

def binaryOp? : Lexeme → Option BinaryOp
  | .mark .plus => some .add
  | .mark .minus => some .sub
  | .mark .star => some .mul
  | .mark .slash => some .div
  | .mark .percent => some .rem
  | .mark .andAnd => some .and
  | .mark .orOr => some .or
  | .mark .eqEq => some .eq
  | .mark .bangEq => some .notEq
  | .mark .lt => some .lt
  | .mark .ltEq => some .ltEq
  | .mark .gt => some .gt
  | .mark .gtEq => some .gtEq
  | _ => none

/-- Put operators that bind at least as tightly as `least` around `left`, one for each unit of fuel;
    the number of tokens left is fuel enough. -/
def climb (l : Level) (braces : Bool) : Nat → Nat → Expr → Parser Expr
  | 0, _, left => pure left
  | fuel + 1, least, left => do
    match binaryOp? (← get).lexeme with
    | none => return left
    | some op =>
      if op.precedence < least then return left
      let _ ← next
      let outer ← openChain l.depth
      let first ← l.unary braces
      let right ← l.climb braces fuel (op.precedence + 1) first
      closeChain outer
      deepen
      l.climb braces fuel least (.binary op left right (left.span.cover right.span))

def expression (l : Level) (braces : Bool) : Parser Expr := do
  let outer ← openChain l.depth
  let first ← l.unary braces
  let e ← l.climb braces (← get).rest.length 0 first
  closeChain outer
  return e

/-- A condition: a brace after it opens the body. -/
def condition (l : Level) : Parser Expr := l.expression false

/-! ### Operands -/

/-- Expressions with commas between them, up to the mark that closes the list; a comma may also
    stand at the end. -/
def items (l : Level) (close : Mark) : Nat → Parser (List Expr)
  | 0 => pure []
  | fuel + 1 => do
    if (← get).atMark close then return []
    let e ← l.expression true
    if ← takeMark .comma then return e :: (← l.items close fuel)
    return [e]

/-- A comma list and the mark that closes it; gives the end of that mark. -/
def closedItems (l : Level) (close : Mark) : Parser (List Expr × Nat) := do
  let es ← l.items close (← get).rest.length
  return (es, (← expect close).stop)

def nameOrPath : Parser Expr := do
  let first ← ident .expectedExpression
  if ← takeMark .colonColon then
    let member ← ident .expectedMemberName
    return .path first member (first.span.cover member.span)
  return .name first

def primary (l : Level) (braces : Bool) : Parser Expr := do
  if ← takeKeyword .cond then return .branch (← l.branch braces)
  if braces && (← get).atMark .openBrace then return .block (← l.block braces)
  match (← get).lexeme with
  | .word _ => nameOrPath
  | .integer value => return .literal (.int value) (← next)
  | .float value => return .literal (.float value) (← next)
  | .text value => return .literal (.text value) (← next)
  | .keyword .yes => return .literal (.bool true) (← next)
  | .keyword .no => return .literal (.bool false) (← next)
  | .mark .openParen =>
    let _ ← next
    let inner ← l.expression true
    let _ ← expect .closeParen
    return inner
  | .mark .openBracket =>
    let start := (← next).start
    let (es, stop) ← l.closedItems .closeBracket
    return .list es ⟨start, stop⟩
  | _ => failHere .expectedExpression

/-- Put calls and indices around `e`, one for each unit of fuel. -/
def suffixes (l : Level) (braces : Bool) : Nat → Expr → Parser Expr
  | 0, e => pure e
  | fuel + 1, e => do
    if ← takeMark .openParen then
      let (args, stop) ← l.closedItems .closeParen
      deepen
      l.suffixes braces fuel (.call e args ⟨e.span.start, stop⟩)
    else if ← takeMark .openBracket then
      let position ← l.expression braces
      let stop := (← expect .closeBracket).stop
      deepen
      l.suffixes braces fuel (.index e position ⟨e.span.start, stop⟩)
    else return e

def operand (l : Level) (braces : Bool) : Parser Expr := do
  let outer ← openChain l.depth
  let first ← l.primary braces
  let e ← l.suffixes braces (← get).rest.length first
  closeChain outer
  return e

/-- Put a unary operator that starts at `start` in front of an operand. A minus in front of an integer
    becomes part of it. -/
def applyUnary (op : UnaryOp) (start : Nat) (operand : Expr) : Expr :=
  match op, operand with
  | .neg, .literal (.int value) span => .literal (.int (-value)) ⟨start, span.stop⟩
  | op, operand => .unary op operand ⟨start, operand.span.stop⟩

def unaryOp? : Lexeme → Option UnaryOp
  | .mark .minus => some .neg
  | .mark .bang => some .not
  | _ => none

def unaryBody (l : Level) (braces : Bool) : Parser Expr := do
  match unaryOp? (← get).lexeme with
  | some op =>
    let start := (← next).start
    return applyUnary op start (← l.unary braces)
  | none => l.operand braces

/-! ### Conditionals -/

def otherwise (l : Level) (braces : Bool) : Parser Otherwise := do
  if ← takeKeyword .otherwise then
    if ← takeKeyword .cond then return .branch (← l.branch braces)
    else return .block (← l.block braces)
  else return .nothing

def branchBody (l : Level) (braces : Bool) : Parser Branch := do
  let start := (← get).previous.start
  let cond ← l.condition
  let body ← l.block braces
  let other ← l.otherwise braces
  let stop := match other with
    | .nothing => body.span.stop
    | .block b => b.span.stop
    | .branch b => b.span.stop
  return .mk cond body other ⟨start, stop⟩

/-! ### Statements -/

/-- A statement, or the expression that ends a block. -/
inductive Item where
  | stmt (s : Stmt)
  | tail (e : Expr)

def bindStmt (l : Level) (braces : Bool) (start : Nat) : Parser Stmt := do
  let mutable ← takeKeyword .mutable
  let name ← ident .expectedBindingName
  if ← takeMark .eq then
    let value ← l.expression braces
    let _ ← expect .semicolon
    return .bind name mutable (some value) ⟨start, value.span.stop⟩
  else
    let _ ← expect .semicolon
    return .bind name mutable none ⟨start, name.span.stop⟩

/-- Parameter names with commas between them; a comma may also stand at the end. -/
def params : Nat → Parser (List Ident)
  | 0 => pure []
  | fuel + 1 => do
    let p ← ident .expectedParameterName
    if ← takeMark .comma then
      if (← get).atMark .closeParen then return [p]
      return p :: (← params fuel)
    return [p]

def funcStmt (l : Level) (braces : Bool) (start : Nat) : Parser Stmt := do
  let name ← ident .expectedFunctionName
  let _ ← expect .openParen
  let names ← if (← get).atMark .closeParen then pure [] else params (← get).rest.length
  let _ ← expect .closeParen
  let body ← l.block braces
  return .func name names body ⟨start, body.span.stop⟩

def retStmt (l : Level) (braces : Bool) (start : Nat) : Parser Stmt := do
  if (← get).atMark .semicolon then
    return .ret none ⟨start, (← next).stop⟩
  else
    let value ← l.expression braces
    return .ret (some value) ⟨start, (← expect .semicolon).stop⟩

def loopStmt (l : Level) (braces : Bool) (start : Nat) : Parser Stmt := do
  let cond ← l.condition
  let body ← l.block braces
  return .loop cond body ⟨start, body.span.stop⟩

/-- What stands left of an equals sign, and the rest of the assignment. -/
def assignStmt (l : Level) (braces : Bool) : Expr → Parser Stmt
  | .name target => do
    let value ← l.expression braces
    return .assign target value ⟨target.span.start, (← expect .semicolon).stop⟩
  | .index base position _ => do
    let value ← l.expression braces
    return .setIndex base position value ⟨base.span.start, (← expect .semicolon).stop⟩
  | other => fail .badAssignmentTarget other.span

def exprItem (l : Level) (braces : Bool) : Parser Item := do
  let e ← l.expression braces
  if ← takeMark .eq then return .stmt (← l.assignStmt braces e)
  if ← takeMark .semicolon then return .stmt (.eval e)
  let here ← get
  if e.isBlockLike && !(here.atMark .closeBrace || here.atEnd) then return .stmt (.eval e)
  return .tail e

def item (l : Level) (braces : Bool) : Parser Item := do
  match (← get).lexeme with
  | .keyword .bind => do
    let start := (← next).start
    return .stmt (← l.bindStmt braces start)
  | .keyword .func => do
    let start := (← next).start
    return .stmt (← l.funcStmt braces start)
  | .keyword .ret => do
    let start := (← next).start
    return .stmt (← l.retStmt braces start)
  | .keyword .loop => do
    let start := (← next).start
    return .stmt (← l.loopStmt braces start)
  | .keyword .leave => do
    let span ← next
    let _ ← expect .semicolon
    return .stmt (.leave span)
  | .keyword .next => do
    let span ← next
    let _ ← expect .semicolon
    return .stmt (.next span)
  | _ => l.exprItem braces

/-- The inside of a block, one statement or semicolon for each unit of fuel. -/
def blockItems (l : Level) (braces : Bool) : Nat → Parser (List Stmt × Option Expr)
  | 0 => pure ([], none)
  | fuel + 1 => do
    let here ← get
    if here.atMark .closeBrace || here.atEnd then return ([], none)
    if ← takeMark .semicolon then l.blockItems braces fuel
    else
      match ← l.item braces with
      | .tail e => return ([], some e)
      | .stmt s =>
        let (stmts, tail) ← l.blockItems braces fuel
        return (s :: stmts, tail)

def blockBody (l : Level) (braces : Bool) : Parser Block := do
  let start := (← expect .openBrace).start
  let (stmts, tail) ← l.blockItems braces (← get).rest.length
  return .mk stmts tail ⟨start, (← expect .closeBrace).stop⟩

/-! ### Levels -/

/-- The level below the last one: nothing may nest any more. -/
def floor : Level where
  depth := maxNesting
  unary := fun _ => failHere .tooDeep
  block := fun _ => failHere .tooDeep
  branch := fun _ => failHere .tooDeep

def around (inner : Level) : Level where
  depth := inner.depth - 1
  unary := fun braces => enter inner.depth (inner.unaryBody braces)
  block := fun braces => enter inner.depth (inner.blockBody braces)
  branch := fun braces => enter inner.depth (inner.branchBody braces)

/-- The level that has room for so many more. -/
def withRoom : Nat → Level
  | 0 => floor
  | n + 1 => around (withRoom n)

/-- The level of statements that stand in no block. -/
def top : Level := withRoom maxNesting

end Level

/-! ### Whole fragments -/

namespace Cursor

/-- Skip to the next place where a statement may start: after a semicolon or a closing brace, or before
    a keyword that opens a statement, outside of any brace skipped on the way. -/
def recover : List Token → Span → Nat → Cursor
  | [], previous, _ => ⟨[], previous, 0⟩
  | t :: ts, previous, depth =>
    match t.lexeme with
    | .endOfInput => ⟨t :: ts, previous, 0⟩
    | .mark .openBrace => recover ts t.span (depth + 1)
    | .mark .closeBrace => if depth ≤ 1 then ⟨ts, t.span, 0⟩ else recover ts t.span (depth - 1)
    | .mark .semicolon => if depth = 0 then ⟨ts, t.span, 0⟩ else recover ts t.span depth
    | .keyword .bind | .keyword .func | .keyword .loop | .keyword .ret =>
      if depth = 0 then ⟨t :: ts, previous, 0⟩ else recover ts t.span depth
    | _ => recover ts t.span depth

def skipStatement (c : Cursor) : Cursor := recover c.rest c.previous 0

end Cursor

structure Reading where
  stmts : List Stmt
  tail : Option Expr
  errors : List SyntaxError
  stop : Nat

namespace Reading

def addStmt (s : Stmt) (r : Reading) : Reading := { r with stmts := s :: r.stmts }

def addError (e : SyntaxError) (r : Reading) : Reading := { r with errors := e :: r.errors }

/-- A tail read at the end of the fragment. -/
def addTail (e : Expr) (r : Reading) : Reading := { r with tail := some e }

/-- Read statements to the end of input, one or a semicolon for each unit of fuel. A statement that
    cannot be read is reported and skipped. -/
def ofCursor : Nat → Cursor → Reading
  | 0, c => ⟨[], none, [], c.span.start⟩
  | fuel + 1, c =>
    if c.atEnd then ⟨[], none, [], c.span.start⟩
    else if c.atMark .semicolon then ofCursor fuel c.advance
    else
      match Level.top.item true { c with peak := 0 } with
      | .ok (.stmt s) after => (ofCursor fuel after).addStmt s
      | .ok (.tail e) after =>
        if after.atEnd then (ofCursor fuel after).addTail e
        else (ofCursor fuel after.skipStatement).addError ⟨.expectedSemicolon, after.span⟩
      | .error e after => (ofCursor fuel after.skipStatement).addError e

end Reading

/-- The fragment that the tokens write, or everything wrong with them. -/
def Fragment.ofTokens (tokens : List Token) : Except (List SyntaxError) Fragment :=
  let r := Reading.ofCursor tokens.length ⟨tokens, ⟨0, 0⟩, 0⟩
  if r.errors.isEmpty then .ok ⟨r.stmts, r.tail, ⟨0, r.stop⟩⟩ else .error r.errors

/-- The fragment that a source text writes, or everything wrong with it. -/
def Fragment.parse (source : List Char) : Except (List SyntaxError) Fragment :=
  match Lexer.tokenize source with
  | .ok tokens => ofTokens tokens
  | .error errors => .error (errors.map SyntaxError.ofLexer)

end ScriptEngine.Tree
