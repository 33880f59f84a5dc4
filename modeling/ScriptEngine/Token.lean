import ScriptEngine.Span
import ScriptEngine.Decimal.Shortest

/-! Tokens of the script language: words, numbers, texts, keywords and marks, each with the bytes
    it takes. -/

namespace ScriptEngine

inductive Keyword where
  | func
  | bind
  | mutable
  | ret
  | cond
  | otherwise
  | loop
  | leave
  | next
  | yes
  | no
  deriving Repr, DecidableEq

namespace Keyword

def spelling : Keyword → String
  | func => "fn"
  | bind => "let"
  | mutable => "mut"
  | ret => "return"
  | cond => "if"
  | otherwise => "else"
  | loop => "while"
  | leave => "break"
  | next => "continue"
  | yes => "true"
  | no => "false"

def all : List Keyword := [func, bind, mutable, ret, cond, otherwise, loop, leave, next, yes, no]

def ofSpelling? (word : String) : Option Keyword := all.find? (·.spelling = word)

end Keyword

inductive Mark where
  | andAnd
  | orOr
  | bang
  | bangEq
  | eq
  | eqEq
  | lt
  | ltEq
  | gt
  | gtEq
  | plus
  | minus
  | star
  | slash
  | percent
  | comma
  | colonColon
  | semicolon
  | openParen
  | closeParen
  | openBrace
  | closeBrace
  | openBracket
  | closeBracket
  deriving Repr, DecidableEq

def Mark.spelling : Mark → String
  | andAnd => "&&"
  | orOr => "||"
  | bang => "!"
  | bangEq => "!="
  | eq => "="
  | eqEq => "=="
  | lt => "<"
  | ltEq => "<="
  | gt => ">"
  | gtEq => ">="
  | plus => "+"
  | minus => "-"
  | star => "*"
  | slash => "/"
  | percent => "%"
  | comma => ","
  | colonColon => "::"
  | semicolon => ";"
  | openParen => "("
  | closeParen => ")"
  | openBrace => "\x7b"
  | closeBrace => "\x7d"
  | openBracket => "["
  | closeBracket => "]"

/-- What a token says, without its place. -/
inductive Lexeme where
  | word (name : String)
  | integer (value : Int64)
  | float (value : Float)
  | text (content : String)
  | keyword (k : Keyword)
  | mark (m : Mark)
  | endOfInput
  deriving Repr

namespace Lexeme

def describe : Lexeme → String
  | word name => s!"identifier `{name}`"
  | integer value => s!"integer `{value}`"
  | float value => "float `" ++ Decimal.floatText Decimal.plainStyle value ++ "`"
  | text _ => "string literal"
  | keyword k => "`" ++ k.spelling ++ "`"
  | mark m => "`" ++ m.spelling ++ "`"
  | endOfInput => "end of input"

/-- The lexeme of a word: a keyword if it spells one, a name otherwise. -/
def ofWord (name : String) : Lexeme :=
  match Keyword.ofSpelling? name with
  | some k => keyword k
  | none => word name

def isMark (m : Mark) : Lexeme → Bool
  | mark n => n = m
  | _ => false

def isKeyword (k : Keyword) : Lexeme → Bool
  | keyword n => n = k
  | _ => false

def isEnd : Lexeme → Bool
  | endOfInput => true
  | _ => false

end Lexeme

structure Token where
  lexeme : Lexeme
  span : Span
  deriving Repr

end ScriptEngine
