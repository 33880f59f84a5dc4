import ScriptEngine.Console.Command
import ScriptEngine.Console.Listing
import ScriptEngine.Session

/-! The console: lines are read, joined to submissions, and answered. -/

namespace ScriptEngine

/-- What one read gives. -/
inductive Line where
  | text (line : String)
  /-- The pending input is dropped. -/
  | interrupted
  /-- The bytes of the line are no text. -/
  | unreadable
  | endOfInput
  deriving Repr, DecidableEq

structure Console where
  session : Session
  cache : Cache
  /-- The lines of a submission that is not complete yet. -/
  pending : String

inductive Ending where
  | left
  | failed (fault : FileFault)
  deriving Repr, DecidableEq

def Ending.farewell : Ending → String
  | left => "\n"
  | failed _ => ""

structure Response where
  console : Console
  out : String
  err : String
  history : Option String
  ending : Option Ending

namespace Console

def start (session : Session) (cache : Cache) : Console := ⟨session, cache, ""⟩

def prompt (c : Console) : String := if c.pending.isEmpty then "prime> " else "  ...> "

/-! ### Answers -/

/-- What a report prints: output and value, and apart from them diagnostics and failure. -/
def reportOut (view : Value.View) (r : Report) : String :=
  let lines := String.join (r.output.map (· ++ "\n"))
  match r.outcome with
  | .executed .unit => lines
  | .executed v => lines ++ v.repr view ++ "\n"
  | _ => lines

def reportErr (name : String) (r : Report) : String :=
  Diagnostic.listing name r.diagnostics ++
    match r.failure? with
    | some text => text ++ "\n"
    | none => ""

def variableLines (s : Session) : String :=
  match s.bindings with
  | [] => "(no variables)\n"
  | vs => String.join (vs.map fun (name, v) => s!"{name} = " ++ v.repr s.memory.view ++ "\n")

def helpText : String :=
  ":vars   list session variables\n" ++
  ":reset  forget every submission\n" ++
  ":quit   leave\n"

def trimEnd (s : String) : String := String.ofList ((s.toList.reverse.dropWhile Text.isBlank).reverse)

def quiet (c : Console) : Response := ⟨c, "", "", none, none⟩

def obey (c : Console) (line : String) : Command → Response
  | .vars => ⟨c, variableLines c.session, "", some (Text.trim line), none⟩
  | .reset => ⟨{ c with session := c.session.reset }, "session reset\n", "", some (Text.trim line), none⟩
  | .help => ⟨c, helpText, "", some (Text.trim line), none⟩
  | .quit => { quiet c with ending := some .left }

def answer (fuel : Nat) (supply : Supply) (c : Console) (source : String) : Option Response := do
  let (report, session, cache) ← c.session.submit fuel supply c.cache source
  let number := report.submission.getD (session.index + 1)
  return { console := ⟨session, cache, ""⟩
           out := reportOut session.memory.view report
           err := reportErr s!"Submission#{number}" report
           history := some (trimEnd source)
           ending := none }

/-- Answer a line; `none` if a script takes more slices than there is fuel. -/
def feed (fuel : Nat) (supply : Supply) (c : Console) : Line → Option Response
  | .interrupted => some (quiet { c with pending := "" })
  | .endOfInput => some { quiet c with ending := some .left }
  | .unreadable => some { quiet c with ending := some (.failed .badText) }
  | .text line =>
    match react c.pending line with
    | .command command => some (obey c line command)
    | .unknown u => some { quiet c with err := u.message ++ "\n" }
    | .ignore => some (quiet c)
    | .wait pending => some (quiet { c with pending := pending })
    | .submit source => answer fuel supply c source

/-! ### Whole dialogues -/

structure Transcript where
  out : String
  err : String
  prompts : List String
  history : List String
  console : Console
  ending : Ending
  unread : List Line

def Transcript.after (shown : String) (r : Response) (t : Transcript) : Transcript :=
  { t with
    out := r.out ++ t.out
    err := r.err ++ t.err
    prompts := shown :: t.prompts
    history := r.history.toList ++ t.history }

def Transcript.ended (shown : String) (c : Console) (ending : Ending) (unread : List Line) : Transcript :=
  ⟨ending.farewell, "", [shown], [], c, ending, unread⟩

def run (fuel : Nat) (supply : Supply) : Console → List Line → Option Transcript
  | c, [] => some (.ended c.prompt c .left [])
  | c, line :: rest => do
    let r ← c.feed fuel supply line
    match r.ending with
    | some ending => return .ended c.prompt r.console ending rest
    | none => return Transcript.after c.prompt r (← run fuel supply r.console rest)

/-! ### Scripts -/

def newline : UInt8 := 10

/-- A line without the carriage return that may stand before its newline. -/
def dropReturn (bytes : List UInt8) : List UInt8 := if bytes.getLast? = some 13 then bytes.dropLast else bytes

def lineOfBytes (bytes : List UInt8) : Line :=
  match String.fromUTF8? ⟨bytes.toArray⟩ with
  | some line => .text line
  | none => .unreadable

/-- The lines of bytes, after the bytes that were read of the first line, the last one first. -/
def splitLines : List UInt8 → List UInt8 → List Line
  | [], [] => []
  | read, [] => [lineOfBytes read.reverse]
  | read, b :: bs =>
    if b = newline then lineOfBytes (dropReturn read.reverse) :: splitLines [] bs else splitLines (b :: read) bs

/-- The lines of a script. The last one need not end in a newline. -/
def linesOfBytes (bytes : List UInt8) : List Line := splitLines [] bytes

end Console
end ScriptEngine
