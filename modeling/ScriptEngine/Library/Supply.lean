import ScriptEngine.FileTree
import ScriptEngine.Library.Bundled

/-! Where the images of libraries come from. -/

namespace ScriptEngine

inductive FetchError where
  | notFound (location : String)
  | unreadable (location : String) (cause : FileFault)
  | build (location : String) (cause : LibraryError)
  | unavailable (location : String) (reason : String)

namespace FetchError

def message : FetchError → String
  | notFound location => s!"no library image at `{location}`"
  | unreadable location _ => s!"failed to read `{location}`"
  | build location _ => s!"bundled library `{location}` failed to build"
  | unavailable location reason => s!"`{location}` is unavailable: {reason}"

def chain : FetchError → List String
  | unreadable location cause => [message (unreadable location cause), cause.message]
  | build location cause => message (build location cause) :: cause.chain
  | e => [e.message]

end FetchError

/-- Answers a request for the image at a location. The answer may depend on the locations that were
    requested before, the oldest first. -/
abbrev Supply := (earlier : List String) → (location : String) → Except FetchError (List UInt8)

namespace Supply

/-- The bundled libraries, built when they are asked for. -/
def bundled : Supply := fun _ location =>
  match Library.bundledAt? location with
  | none => .error (.notFound location)
  | some (name, source) =>
    match Library.build name source with
    | .ok bytes => .ok bytes
    | .error cause => .error (.build location cause)

/-- Images at hand. Of two at one location the last one counts. -/
def stored (images : List (String × List UInt8)) : Supply := fun _ location =>
  match images.reverse.find? (·.1 = location) with
  | some (_, bytes) => .ok bytes
  | none => .error (.notFound location)

/-- Files that are read by their location. -/
def files (read : String → Except FileFault (List UInt8)) : Supply := fun _ location =>
  match read location with
  | .ok bytes => .ok bytes
  | .error .notFound => .error (.notFound location)
  | .error cause => .error (.unreadable location cause)

/-- Nothing but an excuse. -/
def unavailable (reason : String) : Supply := fun _ location => .error (.unavailable location reason)

/-- Bundled libraries under their locations, and files for the others if there is a directory. -/
def engine (read? : Option (String → Except FileFault (List UInt8))) : Supply := fun earlier location =>
  if location.startsWith Library.bundledRoot then bundled earlier location
  else
    match read? with
    | some read => files read earlier location
    | none => unavailable "no reference directory is configured" earlier location

/-- A supply whose first answers at some locations are failures. -/
def recovering (failures : List (String × Nat)) (reason : String) (base : Supply) : Supply := fun earlier location =>
  if earlier.count location < ((failures.find? (·.1 = location)).map (·.2)).getD 0 then
    unavailable reason earlier location
  else base earlier location

end Supply
end ScriptEngine
