import ScriptEngine.Toml.Quoted

/-! Reading documents: keys, values, and the lines of a document. -/

namespace ScriptEngine.Toml.Reader

open Quoted (isSpace isPlain afterBreak?)

def skipSpaces (cs : List Char) : List Char := cs.dropWhile isSpace

def skipComment : List Char → List Char
  | '#' :: cs => cs.dropWhile isPlain
  | cs => cs

/-- The rest after the end of a line, before which only blanks and a comment stand. -/
def endLine (cs : List Char) : Except Fault (List Char) :=
  match skipComment (skipSpaces cs) with
  | [] => .ok []
  | rest =>
    match afterBreak? rest with
    | some rest => .ok rest
    | none => .error .malformed

/-- The rest after blanks, line breaks and comments, each comment on a line of its own. -/
def skipLines : Bool → List Char → Except Fault (List Char)
  | _, '\n' :: cs => skipLines false cs
  | _, '\r' :: '\n' :: cs => skipLines false cs
  | false, c :: cs =>
    if isSpace c then skipLines false cs
    else if c = '#' then skipLines true cs
    else .ok (c :: cs)
  | true, c :: cs => if isPlain c then skipLines true cs else .error .malformed
  | false, [] => .ok []
  | true, [] => .error .malformed

/-! ### Keys -/

def isBareChar (c : Char) : Bool := c.isAlphanum || c = '_' || c = '-'

def keyPart (cs : List Char) : Except Fault (String × List Char) :=
  match cs.takeWhile isBareChar with
  | [] => (Quoted.readLine cs).map fun (text, rest) => (String.ofList text, rest)
  | name => .ok (String.ofList name, cs.dropWhile isBareChar)

/-- The parts of a key, with dots and blanks between them. -/
def keyParts : Nat → List Char → Except Fault (List String × List Char)
  | 0, _ => .error .malformed
  | fuel + 1, cs => do
    let (part, rest) ← keyPart (skipSpaces cs)
    match skipSpaces rest with
    | '.' :: rest => do
      let (parts, rest) ← keyParts fuel rest
      return (part :: parts, rest)
    | rest => return ([part], rest)

/-- The number of levels to which values nest, and the greatest number of parts of a key. -/
def maxNesting : Nat := 79

/-- A key, as the path to it and its last part. -/
def key (cs : List Char) : Except Fault (List String × String × List Char) := do
  let (parts, rest) ← keyParts (cs.length + 1) cs
  if maxNesting < parts.length then .error .tooDeep
  match parts.getLast? with
  | some last => return (parts.dropLast, last, rest)
  | none => .error .malformed

/-! ### Values -/

/-- Reads a value and gives the rest. -/
abbrev ValueReader := List Char → Except Fault (Value × List Char)

def assignment (value : ValueReader) (cs : List Char) : Except Fault (List String × String × Value × List Char) := do
  let (path, last, rest) ← key cs
  match rest with
  | '=' :: rest => do
    let (v, rest) ← value (skipSpaces rest)
    return (path, last, v, rest)
  | _ => .error .malformed

def items (value : ValueReader) : Nat → List Char → Except Fault (List Value × List Char)
  | 0, _ => .error .malformed
  | fuel + 1, cs => do
    match ← skipLines false cs with
    | ']' :: rest => return ([], rest)
    | rest => do
      let (v, rest) ← value rest
      match ← skipLines false rest with
      | ',' :: rest => do
        let (vs, rest) ← items value fuel rest
        return (v :: vs, rest)
      | ']' :: rest => return ([v], rest)
      | _ => .error .malformed

/-- The entries of a table in braces, after those read before. -/
def pairs (value : ValueReader) : Nat → Entries → List Char → Except Fault (Entries × List Char)
  | 0, _, _ => .error .malformed
  | fuel + 1, es, cs => do
    let (path, last, v, rest) ← assignment value cs
    let es ← Entries.put path last v .inline es
    match skipSpaces rest with
    | ',' :: rest => pairs value fuel es rest
    | '\x7d' :: rest => return (es, rest)
    | _ => .error .malformed

def braces (value : ValueReader) (cs : List Char) : Except Fault (Entries × List Char) :=
  match skipSpaces cs with
  | '\x7d' :: rest => .ok ([], rest)
  | rest => pairs value (rest.length + 1) [] rest

/-- A value that holds no others: a quoted text or an unquoted value. -/
def simpleValue : ValueReader
  | c :: rest =>
    if c = Quoted.quote ∨ c = Quoted.tick then
      (Quoted.read (c :: rest)).map fun (text, rest) => (.text (String.ofList text), rest)
    else Scalar.read (c :: rest)
  | [] => .error .malformed

/-- A value of arrays and tables that nest to at most so many levels. -/
def value : Nat → ValueReader
  | 0, cs =>
    match cs with
    | '[' :: _ | '\x7b' :: _ => .error .tooDeep
    | cs => simpleValue cs
  | levels + 1, cs =>
    match cs with
    | '[' :: rest => (items (value levels) (rest.length + 1) rest).map fun (vs, rest) => (.array false vs, rest)
    | '\x7b' :: rest => (braces (value levels) rest).map fun (es, rest) => (.table .inline es, rest)
    | cs => simpleValue cs

/-! ### Documents -/

/-- What was read of a document, and the table that keys go to. -/
structure Draft where
  root : Entries
  current : List String

namespace Draft

def start : Draft := ⟨[], []⟩

def changeAt (d : Draft) (path : List String) (change : Entries.Change) : Except Fault Entries :=
  Entries.descend false change path .header d.root

def assign (d : Draft) (path : List String) (key : String) (v : Value) : Except Fault Draft := do
  return { d with root := ← d.changeAt d.current (Entries.put path key v) }

def openTable (d : Draft) (path : List String) (key : String) : Except Fault Draft := do
  return ⟨← d.changeAt path (Entries.openTable key), path ++ [key]⟩

def openRow (d : Draft) (path : List String) (key : String) : Except Fault Draft := do
  return ⟨← d.changeAt path (Entries.openRow key), path ++ [key]⟩

end Draft

def line (d : Draft) (cs : List Char) : Except Fault (Draft × List Char) :=
  match cs with
  | '[' :: '[' :: rest => do
    let (path, last, rest) ← key rest
    match rest with
    | ']' :: ']' :: rest => return (← d.openRow path last, ← endLine rest)
    | _ => .error .malformed
  | '[' :: rest => do
    let (path, last, rest) ← key rest
    match rest with
    | ']' :: rest => return (← d.openTable path last, ← endLine rest)
    | _ => .error .malformed
  | cs => do
    let (path, last, v, rest) ← assignment (value maxNesting) cs
    return (← d.assign path last v, ← endLine rest)

def lines : Nat → Draft → List Char → Except Fault Entries
  | 0, _, _ => .error .malformed
  | fuel + 1, d, cs =>
    match skipSpaces cs with
    | [] => .ok d.root
    | c :: rest =>
      if c = '#' ∨ (afterBreak? (c :: rest)).isSome then do lines fuel d (← endLine (c :: rest))
      else do
        let (d, rest) ← line d (c :: rest)
        lines fuel d rest

/-- A mark that may stand before a text and means nothing. -/
def byteOrderMark : Char := '\uFEFF'

def read (source : String) : Except Fault Entries :=
  match source.toList with
  | [] => .ok []
  | c :: cs =>
    if c = byteOrderMark then lines (cs.length + 1) .start cs else lines (cs.length + 2) .start (c :: cs)

end ScriptEngine.Toml.Reader
