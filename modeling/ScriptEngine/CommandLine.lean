import ScriptEngine.Span

/-! The arguments of the program: options that can stand anywhere, and a task with arguments of its own. -/

namespace ScriptEngine.CommandLine

inductive Task where
  | console
  | run (files : List String)
  | pack (name source output : String)
  deriving Repr, DecidableEq

structure Request where
  config : Option String
  task : Task
  deriving Repr, DecidableEq

inductive Halt where
  | help
  | misuse
  deriving Repr, DecidableEq

/-! ### Options -/

/-- An option that takes a value. -/
structure Opt where
  long : String
  short : Option Char
  accepts : String → Bool

def isPath (value : String) : Bool := !value.isEmpty

def levelNames : List String := ["off", "error", "warn", "info", "debug", "trace"]

/-- How much is logged: a name, a number up to five, or nothing at all. -/
def isLevel (value : String) : Bool :=
  let digits := match value.toList with
    | '+' :: ds => ds
    | ds => ds
  value.isEmpty || levelNames.contains value.toLower ||
    (!digits.isEmpty && digits.all Char.isDigit &&
      digits.foldl (fun n d => 10 * n + (d.toNat - '0'.toNat)) 0 < levelNames.length)

def generalOptions : List Opt := [⟨"config", none, isPath⟩, ⟨"log-level", none, isLevel⟩]

def packOptions : List Opt := [⟨"namespace", none, fun _ => true⟩, ⟨"output", some 'o', isPath⟩]

/-! ### Arguments -/

inductive Shape where
  | word
  | escape
  | long (name : String) (value : Option String)
  | short (letter : Char) (value : Option String)
  deriving Repr, DecidableEq

/-- What follows a letter: its value, with or without an equals sign. -/
def attached : List Char → Option String
  | [] => none
  | '=' :: cs => some (String.ofList cs)
  | cs => some (String.ofList cs)

def shapeOf (arg : String) : Shape :=
  match arg.toList with
  | ['-', '-'] => .escape
  | '-' :: '-' :: cs =>
    match cs.dropWhile (· ≠ '=') with
    | [] => .long (String.ofList cs) none
    | _ :: value => .long (String.ofList (cs.takeWhile (· ≠ '='))) (some (String.ofList value))
  | '-' :: c :: cs => .short c (attached cs)
  | _ => .word

structure Gathered where
  options : List (String × String)
  words : List String
  deriving Repr, DecidableEq

inductive WordRule where
  /-- The first word ends the gathering. -/
  | stop
  | atMost (count : Nat)
  | all
  deriving Repr, DecidableEq

/-- One more word may follow so many. -/
def WordRule.admits : WordRule → Nat → Bool
  | .stop, _ => false
  | .atMost count, n => n < count
  | .all, _ => true

namespace Gathered

def empty : Gathered := ⟨[], []⟩

def option? (g : Gathered) (name : String) : Option String := (g.options.find? (·.1 = name)).map (·.2)

/-- A word names a file, and there must be room for it. -/
def addWord (rule : WordRule) (g : Gathered) (word : String) : Except Halt Gathered :=
  if isPath word ∧ rule.admits g.words.length then .ok { g with words := g.words ++ [word] }
  else .error .misuse

/-- An option may be given once, with a value that it accepts. -/
def addOption (g : Gathered) (o : Opt) (value : String) : Except Halt Gathered :=
  if (g.option? o.long).isSome ∨ !o.accepts value then .error .misuse
  else .ok { g with options := g.options ++ [(o.long, value)] }

end Gathered

/-- The option that an argument names, and the value that is attached to it. -/
def named (opts : List Opt) : Shape → Except Halt (Opt × Option String)
  | .long "help" none => .error .help
  | .short 'h' _ => .error .help
  | .long name value =>
    match opts.find? (·.long = name) with
    | some o => .ok (o, value)
    | none => .error .misuse
  | .short letter value =>
    match opts.find? (·.short = some letter) with
    | some o => .ok (o, value)
    | none => .error .misuse
  | _ => .error .misuse

/-- Gather arguments in order, and give those that are left over. -/
def gather (opts : List Opt) (rule : WordRule) : Gathered → List String → Except Halt (Gathered × List String)
  | g, [] => .ok (g, [])
  | g, arg :: rest =>
    match shapeOf arg with
    | .word => do
      if rule = .stop then return (g, arg :: rest)
      gather opts rule (← g.addWord rule arg) rest
    | .escape => return (← rest.foldlM (Gathered.addWord rule) g, [])
    | shape => do
      let (o, value) ← named opts shape
      match value, rest with
      | some v, rest => gather opts rule (← g.addOption o v) rest
      | none, v :: rest =>
        if shapeOf v = .word then gather opts rule (← g.addOption o v) rest else .error .misuse
      | none, [] => .error .misuse

/-! ### Tasks -/

def taskNames : List String := ["repl", "run", "pack", "help"]

def gatherAll (opts : List Opt) (rule : WordRule) (args : List String) : Except Halt Gathered := do
  return (← gather (opts ++ generalOptions) rule .empty args).1

/-- Help on the whole program, or on one task; tasks have no tasks of their own. -/
def helpOn : List String → Halt
  | [] => .help
  | [name] => if taskNames.contains name then .help else .misuse
  | _ => .misuse

/-- A task by its name and arguments, and what else these hold. -/
def taskOf (name : String) (args : List String) : Except Halt (Task × Gathered) :=
  match name with
  | "repl" => do
    let g ← gatherAll [] (.atMost 0) args
    return (.console, g)
  | "run" => do
    let g ← gatherAll [] .all args
    if g.words.isEmpty then .error .misuse else return (.run g.words, g)
  | "pack" => do
    let g ← gatherAll packOptions (.atMost 1) args
    match g.words, g.option? "namespace", g.option? "output" with
    | [source], some library, some output => return (.pack library source output, g)
    | _, _, _ => .error .misuse
  | "help" => .error (helpOn args)
  | _ => .error .misuse

/-- The request that arguments make. A general option after the task's name wins over one before it. -/
def parse (args : List String) : Except Halt Request := do
  let (before, rest) ← gather generalOptions .stop .empty args
  match rest with
  | [] => return ⟨before.option? "config", .console⟩
  | name :: rest => do
    let (task, after) ← taskOf name rest
    return ⟨after.option? "config" <|> before.option? "config", task⟩

def usage : String :=
  "Incremental Prime script engine\n\n" ++
  "Usage: prime-repl [--config <FILE>] [--log-level <LEVEL>] [COMMAND]\n\n" ++
  "Commands:\n" ++
  "  repl                                             Interactive session (the default)\n" ++
  "  run <FILES>...                                   Submit each file, in order, to one session\n" ++
  "  pack --namespace <NAME> <SOURCE> --output <FILE> Build a library image\n"

end ScriptEngine.CommandLine
