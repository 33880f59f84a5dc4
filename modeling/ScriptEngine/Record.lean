import ScriptEngine.Fault

/-! The variables of a session: one record for each submission, one slot for each name it declares. -/

namespace ScriptEngine

/-- The variables of one submission. A slot is empty until it is assigned. -/
structure Record where
  names : Array String
  values : Array (Option Value)

namespace Record

def fresh (names : Array String) : Record := ⟨names, Array.replicate names.size none⟩

def assigned (r : Record) : List (String × Value) :=
  (r.names.toList.zip r.values.toList).filterMap fun (name, value) => value.map (name, ·)

end Record

/-- The records of a session by submission. A place is empty if its submission never started. -/
structure Records where
  places : Array (Option Record)

namespace Records

def withCapacity (capacity : Nat) : Records := ⟨Array.replicate capacity none⟩

def size (rs : Records) : Nat := rs.places.size

/-- Make room for `needed` records; room at least doubles. -/
def ensure (rs : Records) (needed : Nat) : Records :=
  if needed ≤ rs.size then rs
  else ⟨rs.places ++ Array.replicate (max needed (rs.size * 2) - rs.size) none⟩

def start (rs : Records) (index : Nat) (names : Array String) : Records :=
  ⟨(rs.ensure (index + 1)).places.setIfInBounds index (some (.fresh names))⟩

def record? (rs : Records) (index : Nat) : Option Record := (rs.places[index]?).join

def load (rs : Records) (record slot : Nat) : Except RuntimeError Value :=
  match rs.record? record with
  | none => .error (.missingSubmission (record + 1))
  | some r =>
    match r.values[slot]? with
    | none => .error (.invalidProgram (.slot record slot))
    | some none => .error (.unassigned (r.names.getD slot ""))
    | some (some v) => .ok v

def put (record slot : Nat) (v : Value) (rs : Records) : Records :=
  ⟨rs.places.modify record fun r => r.map fun r => { r with values := r.values.setIfInBounds slot (some v) }⟩

def store (rs : Records) (record slot : Nat) (v : Value) : Except RuntimeError Records :=
  match (rs.record? record).map (·.values.size) with
  | none => .error (.missingSubmission (record + 1))
  | some slots =>
    if slot < slots then .ok (put record slot v rs) else .error (.invalidProgram (.slot record slot))

/-- Give a name a value in a listing; a new name goes to the end. -/
def assign (name : String) (v : Value) : List (String × Value) → List (String × Value)
  | [] => [(name, v)]
  | (n, w) :: rest => if n = name then (n, v) :: rest else (n, w) :: assign name v rest

/-- The assigned variables of a session. A name that was assigned by several submissions stands where the
    first one put it and has the value of the last one. -/
def bindings (rs : Records) : List (String × Value) :=
  (rs.places.toList.flatMap fun r => (r.map Record.assigned).getD []).foldl
    (fun listing (name, v) => assign name v listing) []

end Records
end ScriptEngine
