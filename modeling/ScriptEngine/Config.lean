import ScriptEngine.FileTree
import ScriptEngine.Session
import ScriptEngine.Toml.Reader

/-! Settings of the engine, read from a file with the sections `references` and `session`. -/

namespace ScriptEngine

structure Config where
  /-- The directory for libraries that are not bundled. -/
  base : Option String
  locations : List String
  imports : List String
  capacity : Nat
  maxCallDepth : Nat
  timeout : Option Nat
  deriving Repr, DecidableEq

inductive SettingFault where
  | document (fault : Toml.Fault)
  | unknownKey (key : String)
  | wrongType (key : String)
  deriving Repr, DecidableEq

def SettingFault.message : SettingFault → String
  | document fault => fault.message
  | unknownKey key => s!"unknown field `{key}`"
  | wrongType key => s!"invalid value for `{key}`"

inductive ConfigError where
  | unreadable (path : String) (cause : FileFault)
  | badDocument (path : String) (cause : SettingFault)
  | noCalls
  | repeatedLocation (location : String)
  | repeatedImport (name : String)
  deriving Repr, DecidableEq

namespace ConfigError

def message : ConfigError → String
  | unreadable path _ => s!"failed to read {path}"
  | badDocument path _ => s!"failed to parse {path}"
  | noCalls => "invalid setting `session.max_call_depth`: must be at least 1"
  | repeatedLocation location => s!"invalid setting `references.locations`: `{location}` is listed twice"
  | repeatedImport name => s!"invalid setting `session.imports`: `{name}` is listed twice"

def chain : ConfigError → List String
  | unreadable path cause => [message (unreadable path cause), cause.message]
  | badDocument path cause => [message (badDocument path cause), cause.message]
  | e => [e.message]

end ConfigError

namespace Config

def default : Config :=
  { base := none
    locations := Library.bundledLocations
    imports := SessionOptions.default.imports
    capacity := SessionOptions.default.capacity
    maxCallDepth := SessionOptions.default.invoke.maxCallDepth
    timeout := SessionOptions.default.invoke.timeout }

/-! ### Fields -/

def textOf (key : String) : Toml.Value → Except SettingFault String
  | .text s => .ok s
  | _ => .error (.wrongType key)

def textsOf (key : String) : Toml.Value → Except SettingFault (List String)
  | .array _ items => items.mapM (textOf key)
  | _ => .error (.wrongType key)

def countOf (key : String) : Toml.Value → Except SettingFault Nat
  | .integer n => if 0 ≤ n.toInt then .ok n.toInt.toNat else .error (.wrongType key)
  | _ => .error (.wrongType key)

/-- Takes a value over into a configuration. -/
abbrev Setter := Toml.Value → Config → Except SettingFault Config

def setBase : Setter := fun v c => do return { c with base := some (← textOf "base" v) }

def setLocations : Setter := fun v c => do return { c with locations := ← textsOf "locations" v }

def setImports : Setter := fun v c => do return { c with imports := ← textsOf "imports" v }

def setCapacity : Setter := fun v c => do return { c with capacity := ← countOf "initial_state_capacity" v }

def setMaxCallDepth : Setter := fun v c => do return { c with maxCallDepth := ← countOf "max_call_depth" v }

def setTimeout : Setter := fun v c => do return { c with timeout := some (← countOf "timeout_ms" v) }

/-! ### Sections -/

/-- The fields of a section, in the order in which an array gives them. -/
abbrev Fields := List (String × Setter)

def referenceFields : Fields := [("base", setBase), ("locations", setLocations)]

def sessionFields : Fields :=
  [("imports", setImports), ("initial_state_capacity", setCapacity), ("max_call_depth", setMaxCallDepth),
   ("timeout_ms", setTimeout)]

def takeNamed (fields : Fields) : Toml.Entries → Config → Except SettingFault Config
  | [], c => .ok c
  | (key, v) :: rest, c =>
    match fields.find? (·.1 = key) with
    | some (_, set) => do takeNamed fields rest (← set v c)
    | none => .error (.unknownKey key)

/-- Take over fields by their places. Values beyond the last field do not count. -/
def takeOrdered : Fields → List Toml.Value → Config → Except SettingFault Config
  | (_, set) :: fields, v :: vs, c => do takeOrdered fields vs (← set v c)
  | _, _, c => .ok c

/-- Take over a section: a table, or an array of its fields. -/
def takeSection (name : String) (fields : Fields) : Setter := fun v c =>
  match v with
  | .table _ entries => takeNamed fields entries c
  | .array _ items => takeOrdered fields items c
  | _ => .error (.wrongType name)

def sections : Fields :=
  [("references", takeSection "references" referenceFields), ("session", takeSection "session" sessionFields)]

/-! ### Whole files -/

def firstRepeated? : List String → List String → Option String
  | _, [] => none
  | earlier, x :: rest => if earlier.contains x then some x else firstRepeated? (x :: earlier) rest

def validate (c : Config) : Except ConfigError Config :=
  if c.maxCallDepth = 0 then .error .noCalls
  else
    match firstRepeated? [] c.locations, firstRepeated? [] c.imports with
    | some location, _ => .error (.repeatedLocation location)
    | none, some name => .error (.repeatedImport name)
    | none, none => .ok c

/-- The settings that a document gives; what it does not mention is as usual. -/
def ofDocument (source : String) : Except SettingFault Config :=
  match Toml.Reader.read source with
  | .error fault => .error (.document fault)
  | .ok entries => takeNamed sections entries default

def parse (path source : String) : Except ConfigError Config :=
  match ofDocument source with
  | .error fault => .error (.badDocument path fault)
  | .ok c => validate c

/-- The base directory, seen from where the file is. -/
def relocate (path : String) (c : Config) : Config :=
  { c with base := c.base.map (FileTree.join ((FileTree.parent? path).getD ".")) }

def load (path : String) (content : Except FileFault String) : Except ConfigError Config :=
  match content with
  | .error fault => .error (.unreadable path fault)
  | .ok source => (parse path source).map (relocate path)

def sessionOptions (c : Config) : SessionOptions :=
  ⟨c.imports, c.capacity, { InvokeOptions.default with timeout := c.timeout, maxCallDepth := c.maxCallDepth }⟩

end Config
end ScriptEngine
