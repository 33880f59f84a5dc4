import ScriptEngine.Token.Lexer

/-! Why a fragment could not be read. -/

namespace ScriptEngine

/-- The greatest height of a syntax tree. -/
def maxNesting : Nat := 200

inductive SyntaxCause where
  | lexical (fault : Lexer.Fault)
  | expectedMark (mark : Mark) (found : Lexeme)
  | expectedFunctionName
  | expectedParameterName
  | expectedBindingName
  | expectedMemberName
  | expectedExpression
  | expectedSemicolon
  | badAssignmentTarget
  | tooDeep
  deriving Repr

namespace SyntaxCause

def message : SyntaxCause → String
  | lexical fault => fault.message
  | expectedMark mark found => "Expected `" ++ mark.spelling ++ "`, found " ++ found.describe
  | expectedFunctionName => "Expected function name"
  | expectedParameterName => "Expected parameter name"
  | expectedBindingName => "Expected binding name"
  | expectedMemberName => "Expected name after '::'"
  | expectedExpression => "Unexpected token in expression"
  | expectedSemicolon => "Expected ';' after expression"
  | badAssignmentTarget => "Invalid assignment target"
  | tooDeep => "Expression nested too deeply"

def help : SyntaxCause → Option String
  | badAssignmentTarget => some "only names and indexed elements can be assigned"
  | tooDeep =>
    some s!"nesting is limited to {maxNesting} levels; bind inner parts with `let` first"
  | _ => none

end SyntaxCause

structure SyntaxError where
  cause : SyntaxCause
  span : Span
  deriving Repr

def SyntaxError.ofLexer (e : Lexer.Error) : SyntaxError := ⟨.lexical e.fault, e.span⟩

end ScriptEngine
