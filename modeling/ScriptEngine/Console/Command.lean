import ScriptEngine.Text.Blank
import ScriptEngine.Token.Lexer

/-! What a line of input means to the console: a command, or part of a submission that may go on in the
    next line. -/

namespace ScriptEngine

inductive Command where
  | vars
  | reset
  | help
  | quit
  deriving Repr, DecidableEq

structure UnknownCommand where
  name : String
  deriving Repr, DecidableEq

def UnknownCommand.message (u : UnknownCommand) : String := s!"unknown command `:{u.name}`, try `:help`"

def Command.ofName (name : String) : Except UnknownCommand Command :=
  match name with
  | "vars" => .ok .vars
  | "reset" => .ok .reset
  | "help" | "h" => .ok .help
  | "quit" | "q" | "exit" => .ok .quit
  | other => .error ⟨other⟩

/-- The command of a line; `none` if the line is no command. -/
def Command.parse? (line : String) : Option (Except UnknownCommand Command) :=
  match Text.trimChars line.toList with
  | ':' :: name => some (ofName (String.ofList name))
  | _ => none

namespace Console

/-- By how much a token changes the number of open brackets. -/
def bracketChange : Lexeme → Int
  | .mark .openParen | .mark .openBrace | .mark .openBracket => 1
  | .mark .closeParen | .mark .closeBrace | .mark .closeBracket => -1
  | _ => 0

def openBrackets (tokens : List Token) : Int := tokens.foldl (fun depth t => depth + bracketChange t.lexeme) 0

def isUnterminated (e : Lexer.Error) : Bool := e.fault = .openComment || e.fault = .openText

/-- The text can be submitted as it is: it leaves no bracket, text or comment open. -/
def isComplete (source : String) : Bool :=
  match Lexer.tokenize source.toList with
  | .ok tokens => openBrackets tokens ≤ 0
  | .error errors => !errors.any isUnterminated

inductive Action where
  | command (c : Command)
  | unknown (u : UnknownCommand)
  | ignore
  /-- The input goes on in the next line. -/
  | wait (pending : String)
  | submit (source : String)
  deriving Repr, DecidableEq

/-- A line of a submission, after those that are pending. -/
def extend (pending line : String) : Action :=
  let source := pending ++ line ++ "\n"
  if isComplete source then .submit source else .wait source

/-- What a line leads to if the given text is pending. Only with nothing pending can it be a command. -/
def react (pending line : String) : Action :=
  if pending.isEmpty then
    match Command.parse? line with
    | some (.ok c) => .command c
    | some (.error u) => .unknown u
    | none => if (Text.trimChars line.toList).isEmpty then .ignore else extend pending line
  else extend pending line

end Console
end ScriptEngine
