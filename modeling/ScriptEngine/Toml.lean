import ScriptEngine.Span

/-! TOML documents, the format of settings. Which tables may still grow depends on how they came about,
    so a table remembers that. -/

namespace ScriptEngine.Toml

inductive Origin where
  /-- By a header of its own. -/
  | header
  /-- As part of a longer header. -/
  | implied
  /-- As part of a dotted key. -/
  | dotted
  /-- In braces. -/
  | inline
  deriving Repr, DecidableEq

inductive Value where
  | text (content : String)
  | integer (value : Int64)
  /-- A boolean, a floating-point number or a date. -/
  | other
  /-- An array; one of tables with headers of their own is open. -/
  | array (isOpen : Bool) (items : List Value)
  | table (origin : Origin) (entries : List (String × Value))
  deriving Repr

/-- The content of a table, in the order in which keys were first used. -/
abbrev Entries := List (String × Value)

inductive Fault where
  | malformed
  | tooDeep
  | duplicateKey (key : String)
  | notTable (key : String)
  deriving Repr, DecidableEq

def Fault.message : Fault → String
  | malformed => "malformed document"
  | tooDeep => "values are nested too deeply"
  | duplicateKey key => s!"duplicate key `{key}`"
  | notTable key => s!"`{key}` is not a table"

namespace Entries

def get? (es : Entries) (key : String) : Option Value := (es.find? (·.1 = key)).map (·.2)

def replace (es : Entries) (key : String) (v : Value) : Entries :=
  es.map fun (k, w) => if k = key then (k, v) else (k, w)

/-- A table that is changed, or why it cannot be. -/
abbrev Change := Origin → Entries → Except Fault Entries

/-- Change the table that a path of keys leads to. Tables on the way that do not exist are made. A dotted
    key cannot lead through a table with a header of its own; a header leads to the last table of an
    open array. -/
def descend (isDotted : Bool) (change : Change) : List String → Change
  | [], origin, es => change origin es
  | key :: path, _, es =>
    match es.get? key with
    | none => do
      let origin : Origin := if isDotted then .dotted else .implied
      let inner ← descend isDotted change path origin []
      return es ++ [(key, .table origin inner)]
    | some (.table origin inner) =>
      if origin = .inline then .error (.notTable key)
      else if isDotted ∧ origin = .header then .error (.duplicateKey key)
      else do
        let inner ← descend isDotted change path origin inner
        return es.replace key (.table origin inner)
    | some (.array true items) =>
      match items.getLast? with
      | some (.table origin inner) => do
        let inner ← descend isDotted change path origin inner
        return es.replace key (.array true (items.dropLast ++ [.table origin inner]))
      | _ => .error (.notTable key)
    | some _ => .error (.notTable key)

/-- Add a value under a new key. A table of dotted keys takes dotted keys only, and any other table none
    that led to it. -/
def addKey (path : List String) (key : String) (v : Value) : Change := fun origin es =>
  if (origin == .dotted) == path.isEmpty then .error (.duplicateKey key)
  else
    match es.get? key with
    | some _ => .error (.duplicateKey key)
    | none => .ok (es ++ [(key, v)])

def put (path : List String) (key : String) (v : Value) : Change := descend true (addKey path key v) path

def openTable (key : String) : Change := fun _ es =>
  match es.get? key with
  | none => .ok (es ++ [(key, .table .header [])])
  | some (.table .implied inner) => .ok (es.replace key (.table .header inner))
  | some _ => .error (.duplicateKey key)

/-- Open one more table of an array. -/
def openRow (key : String) : Change := fun _ es =>
  match es.get? key with
  | none => .ok (es ++ [(key, .array true [.table .header []])])
  | some (.array true items) => .ok (es.replace key (.array true (items ++ [.table .header []])))
  | some _ => .error (.duplicateKey key)

end Entries
end ScriptEngine.Toml
