import ScriptEngine.Span

/-! A tree of files, and what goes wrong when a path is followed in one. -/

namespace ScriptEngine

inductive FileFault where
  | notFound
  | notDirectory
  | isDirectory
  | nameTooLong
  | zeroInName
  | badText
  /-- Any other failure, in the words of the system. -/
  | other (text : String)
  deriving Repr, DecidableEq

def FileFault.message : FileFault → String
  | notFound => "No such file or directory (os error 2)"
  | notDirectory => "Not a directory (os error 20)"
  | isDirectory => "Is a directory (os error 21)"
  | nameTooLong => "File name too long (os error 36)"
  | zeroInName => "file name contained an unexpected NUL byte"
  | badText => "stream did not contain valid UTF-8"
  | other text => text

inductive FileNode where
  | file (bytes : List UInt8)
  | directory
  deriving Repr, DecidableEq

/-- Files and directories by their names from the root on. The directories above an entry exist too. -/
structure FileTree where
  entries : List (List String × FileNode)
  /-- The directory that relative paths start from. -/
  workplace : List String
  deriving Repr, DecidableEq

namespace FileTree

def node? (t : FileTree) (names : List String) : Option FileNode :=
  match t.entries.find? (·.1 = names) with
  | some (_, node) => some node
  | none =>
    if names.isPrefixOf t.workplace || t.entries.any (fun e => names.isPrefixOf e.1) then some .directory
    else none

def nameLimit : Nat := 255

/-- A path must be shorter than this many bytes. -/
def pathLimit : Nat := 4096

/-- Where one more name leads from a directory. -/
def enter (dir : List String) (name : String) : List String :=
  if name = "" ∨ name = "." then dir
  else if name = ".." then dir.dropLast
  else dir ++ [name]

/-- Follow names one after the other; what a name is looked up in must be a directory. -/
def follow (t : FileTree) : List String → List String → Except FileFault (List String)
  | names, [] => .ok names
  | names, name :: rest =>
    match t.node? names with
    | none => .error .notFound
    | some (.file _) => .error .notDirectory
    | some .directory =>
      if nameLimit < name.utf8ByteSize then .error .nameTooLong else t.follow (enter names name) rest

def parts (path : String) : List String := path.splitOn "/"

def isAbsolute (path : String) : Bool := path.startsWith "/"

def startOf (t : FileTree) (path : String) : List String := if isAbsolute path then [] else t.workplace

/-- What is wrong with the path itself. -/
def checkPath (path : String) : Except FileFault Unit :=
  if path.contains '\x00' then .error .zeroInName
  else if path = "" then .error .notFound
  else if pathLimit ≤ path.utf8ByteSize then .error .nameTooLong
  else .ok ()

/-- The names from the root on that a path stands for. -/
def locate (t : FileTree) (path : String) : Except FileFault (List String) := do
  checkPath path
  t.follow (t.startOf path) (parts path)

def read (t : FileTree) (path : String) : Except FileFault (List UInt8) := do
  match t.node? (← t.locate path) with
  | none => .error .notFound
  | some .directory => .error .isDirectory
  | some (.file bytes) => .ok bytes

def isFile (t : FileTree) (path : String) : Bool := (t.read path).isOk

/-- Put a node at a place given by names from the root on. -/
def insert (t : FileTree) (names : List String) (node : FileNode) : FileTree :=
  { t with entries := (names, node) :: t.entries.filter (·.1 ≠ names) }

/-- Where a new file at a path would stand. The directory above it must exist, and a path that ends in
    a slash or in dots is no path of a file. -/
def place (t : FileTree) (path : String) : Except FileFault (List String) := do
  checkPath path
  match (parts path).reverse.dropWhile (· = "") with
  | [] => .error .isDirectory
  | last :: above =>
    let names ← t.follow (t.startOf path) (above.reverse ++ [last])
    if path.endsWith "/" ∨ last = "." ∨ last = ".." then .error .isDirectory else .ok names

def write (t : FileTree) (path : String) (bytes : List UInt8) : Except FileFault FileTree := do
  let names ← t.place path
  match t.node? names with
  | some .directory => .error .isDirectory
  | _ => .ok (t.insert names (.file bytes))

/-! ### Paths -/

/-- One path below another; an absolute path stands for itself. -/
def join (base path : String) : String :=
  if isAbsolute path || base.isEmpty then path
  else if base.endsWith "/" then base ++ path
  else base ++ "/" ++ path

/-- Drop the parts at the end of a path, the last one first, that name nothing. -/
def dropIdle : List String → List String
  | [] => []
  | [name] => if name = "" then [] else [name]
  | name :: rest => if name = "" ∨ name = "." then dropIdle rest else name :: rest

/-- The path above the last name of a path; a path without names has none. -/
def parent? (path : String) : Option String :=
  let absolute := isAbsolute path
  let names := dropIdle ((if absolute then (parts path).drop 1 else parts path).reverse)
  let names := if absolute then names.filter (· ≠ ".") else names
  match names with
  | [] => none
  | _ :: above =>
    let text := "/".intercalate (dropIdle above).reverse
    some (if absolute then "/" ++ text else text)

end FileTree
end ScriptEngine
