import ScriptEngine.CommandLine
import ScriptEngine.CommandLine.Job
import ScriptEngine.Config

/-! What the program does for a request. Every errand ends in an exit code. -/

namespace ScriptEngine.CommandLine

def success : Nat := 0

def failure : Nat := 1

def wrongUsage : Nat := 2

def tell (out : String) : Job Unit := .say out "" .done

def complain (err : String) : Job Unit := .say "" err .done

/-- Name an error and the causes behind it, and fail. -/
def fail (messages : List String) : Job Nat := do
  complain ("error: " ++ explain messages ++ "\n")
  return failure

def readText (path : String) : Job (Except FileFault String) :=
  .readFile path fun
    | .error fault => .done (.error fault)
    | .ok bytes =>
      match String.fromUTF8? ⟨bytes.toArray⟩ with
      | some text => .done (.ok text)
      | none => .done (.error .badText)

/-! ### Settings -/

def defaultConfig : String := "prime-repl.toml"

def loadConfig (path : String) : Job (Except ConfigError Config) := do return Config.load path (← readText path)

/-- The settings of the given file, or of the usual one if it is there. -/
def findConfig : Option String → Job (Except ConfigError Config)
  | some path => loadConfig path
  | none => .isFile defaultConfig fun
    | true => loadConfig defaultConfig
    | false => .done (.ok .default)

/-! ### Libraries -/

def readLibraries (base : String) : List String → Job (List (String × Except FileFault (List UInt8)))
  | [] => .done []
  | location :: rest =>
    if location.startsWith Library.bundledRoot then readLibraries base rest
    else
      .readFile (FileTree.join base location) fun content => do
        return (location, content) :: (← readLibraries base rest)

def readAmong (files : List (String × Except FileFault (List UInt8))) (location : String) :
    Except FileFault (List UInt8) :=
  match files.find? (·.1 = location) with
  | some (_, content) => content
  | none => .error .notFound

/-- What a cache that is not loaded yet can be loaded from. -/
def supplyFor (config : Config) (cache : Cache) : Job Supply :=
  match config.base with
  | none => .done (Supply.engine none)
  | some base =>
    if cache.isLoaded then .done (Supply.engine none)
    else do return Supply.engine (some (readAmong (← readLibraries base cache.locations)))

/-! ### Errands -/

def runFiles (config : Config) : List String → Session → Cache → Bool → Job Nat
  | [], _, _, failed => .done (if failed then failure else success)
  | file :: rest, session, cache, failed => do
    match ← readText file with
    | .error fault => do
      complain (s!"Failed to access {file}: {fault.message}" ++ "\n")
      return failure
    | .ok source => do
      let supply ← supplyFor config cache
      match session.submit Invocation.endlessFuel supply cache source with
      | none => return failure
      | some (report, session, cache) => do
        .say (Console.reportOut session.memory.view report) (Console.reportErr file report) .done
        runFiles config rest session cache (failed || !report.isSuccess)

/-- Talk until the console is left; there are never more than `lines` lines. -/
def converse (config : Config) : (lines : Nat) → Console → Job Nat
  | 0, _ => .done failure
  | lines + 1, console =>
    .readLine console.prompt fun line => do
      let supply ← supplyFor config console.cache
      match console.feed Invocation.endlessFuel supply line with
      | none => return failure
      | some r => do
        .say r.out r.err .done
        match r.ending with
        | none => converse config lines r.console
        | some .left => do
          tell Ending.left.farewell
          return success
        | some (.failed fault) => fail [fault.message]

def pack (name source output : String) : Job Nat := do
  match ← readText source with
  | .error fault => do
    complain (s!"Failed to access {source}: {fault.message}" ++ "\n")
    return failure
  | .ok text =>
    match Library.build name text with
    | .error (.rejected _ diagnostics) => do
      complain (Diagnostic.listing source diagnostics)
      return failure
    | .error e => fail e.chain
    | .ok bytes =>
      .writeFile output bytes fun
        | .error fault => do
          complain (s!"Failed to write {output}: {fault.message}" ++ "\n")
          return failure
        | .ok () => do
          tell (s!"wrote {output} ({bytes.length} bytes)" ++ "\n")
          return success

def perform (request : Request) : Job Nat := do
  match ← findConfig request.config with
  | .error e => fail e.chain
  | .ok config =>
    let session := Session.start config.sessionOptions
    let cache := Cache.start config.locations
    match request.task with
    | .console => converse config Invocation.endlessFuel (.start session cache)
    | .run files => runFiles config files session cache false
    | .pack name source output => pack name source output

/-- What the program does with its arguments. -/
def errand (args : List String) : Job Nat :=
  match parse args with
  | .ok request => perform request
  | .error .help => do
    tell usage
    return success
  | .error .misuse => do
    complain usage
    return wrongUsage

end ScriptEngine.CommandLine
