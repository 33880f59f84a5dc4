import ScriptEngine.Library.Supply

/-! The libraries that submissions are compiled against, loaded when they are first needed. An attempt that
    fails leaves nothing behind but the count of attempts, and the next one starts over. -/

namespace ScriptEngine

inductive ReferenceError where
  | fetch (location : String) (cause : FetchError)
  | malformed (location : String) (cause : LoadError)
  | notLibrary (location : String)
  | duplicateName (name first second : String)
  | cancelled

namespace ReferenceError

def message : ReferenceError → String
  | fetch location _ => s!"failed to fetch reference `{location}`"
  | malformed location _ => s!"reference `{location}` is not a valid library image"
  | notLibrary location => s!"reference `{location}` is a submission image, not a library"
  | duplicateName name first second => s!"namespace `{name}` is provided by both `{first}` and `{second}`"
  | cancelled => "reference loading was cancelled"

def chain : ReferenceError → List String
  | fetch location cause => message (fetch location cause) :: cause.chain
  | malformed location cause => [message (malformed location cause), cause.message]
  | e => [e.message]

end ReferenceError

namespace Library

/-- The library that bytes stand for. It can import nothing. -/
def ofBytes (location : String) (bytes : List UInt8) : Except ReferenceError Library :=
  match Image.decode bytes with
  | .error cause => .error (.malformed location cause)
  | .ok image =>
    if image.kind ≠ .library then .error (.notLibrary location)
    else
      match CodeModule.load image #[] with
      | .error cause => .error (.malformed location cause)
      | .ok code => .ok (ofModule location code)

end Library

structure Cache where
  locations : List String
  loaded : Option ReferenceSet
  attempts : Nat
  /-- The locations that were requested so far, the oldest first. -/
  requested : List String

namespace Cache

def start (locations : List String) : Cache := ⟨locations, none, 0, []⟩

def isLoaded (c : Cache) : Bool := c.loaded.isSome

/-- Add a library to those loaded before. Names must differ. -/
def addLibrary (set : ReferenceSet) (l : Library) : Except ReferenceError ReferenceSet :=
  match set.library? l.name with
  | some existing => .error (.duplicateName l.name existing.location l.location)
  | none => .ok (set.push l)

def fetchLibrary (supply : Supply) (requested : List String) (location : String) : Except ReferenceError Library :=
  match supply requested location with
  | .error cause => .error (.fetch location cause)
  | .ok bytes => Library.ofBytes location bytes

/-- Says of a request, from the requests before it, that loading is found cancelled while its answer is waited for. -/
abbrev Cancels := (earlier : List String) → Bool

/-- Load locations one after the other, and log the requests. Loading ends at a request that is found cancelled,
    whatever its answer. -/
def loadAll (supply : Supply) (cancels : Cancels) :
    List String → ReferenceSet → List String → Except ReferenceError ReferenceSet × List String
  | [], set, requested => (.ok set, requested)
  | location :: rest, set, requested =>
    if cancels requested then (.error .cancelled, requested ++ [location])
    else
      match fetchLibrary supply requested location >>= addLibrary set with
      | .error e => (.error e, requested ++ [location])
      | .ok set => loadAll supply cancels rest set (requested ++ [location])

/-- The libraries, loaded first if that was not done yet. -/
def ensureUnder (c : Cache) (supply : Supply) (cancels : Cancels) : Except ReferenceError ReferenceSet × Cache :=
  match c.loaded with
  | some set => (.ok set, c)
  | none =>
    match loadAll supply cancels c.locations #[] c.requested with
    | (.ok set, requested) => (.ok set, ⟨c.locations, some set, c.attempts + 1, requested⟩)
    | (.error e, requested) => (.error e, ⟨c.locations, none, c.attempts + 1, requested⟩)

/-- The libraries, with loading cancelled from the beginning or not at all. -/
def ensure (c : Cache) (supply : Supply) (cancelled : Bool) : Except ReferenceError ReferenceSet × Cache :=
  c.ensureUnder supply fun _ => cancelled

end Cache
end ScriptEngine
